import Descent.Proofs.Derivation
import Mathlib.Data.List.TakeWhile

/-!
# The rest of a text

What a pattern derives at an offset depends on the characters from there on, the *rest* of
the text (`Text.rest`). A word stands at an offset if the rest starts with it, and what
stands between two offsets is what the rest loses from the one to the other.

A repeated character class first matches all characters of the class that come next, its
*run* (`Pattern.run`), and a skip of it goes to the end of the run
(`skipsTo_charClass_iff`).
-/

namespace Descent

namespace Text

/-- The characters from an offset on. -/
def rest (t : Text) (pos : Nat) : Word := t.toList.drop pos

@[simp] theorem rest_zero (t : Text) : t.rest 0 = t.toList := rfl

@[simp] theorem rest_size (t : Text) : t.rest t.size = [] :=
  List.drop_of_length_le (Nat.le_of_eq Array.length_toList)

theorem rest_eq_nil_iff {t : Text} {pos : Nat} : t.rest pos = [] ↔ t.size ≤ pos := by
  rw [rest, List.drop_eq_nil_iff, Array.length_toList]

theorem head?_rest (t : Text) (pos : Nat) : (t.rest pos).head? = t[pos]? := by
  rw [rest, List.head?_drop, Array.getElem?_toList]

theorem rest_add (t : Text) (pos n : Nat) : t.rest (pos + n) = (t.rest pos).drop n := by
  rw [rest, rest, List.drop_drop]

theorem rest_succ_of_cons {t : Text} {pos : Nat} {c : Char} {w : Word} (h : t.rest pos = c :: w) :
    t.rest (pos + 1) = w := by
  rw [rest_add, h]
  rfl

theorem getElem?_of_rest_cons {t : Text} {pos : Nat} {c : Char} {w : Word}
    (h : t.rest pos = c :: w) : t[pos]? = some c := by
  rw [← head?_rest, h]
  rfl

theorem rest_of_getElem? {t : Text} {pos : Nat} {c : Char} (h : t[pos]? = some c) :
    t.rest pos = c :: t.rest (pos + 1) := by
  rw [← head?_rest, List.head?_eq_some_iff] at h
  obtain ⟨w, hw⟩ := h
  rw [hw, rest_succ_of_cons hw]

/-- A character stands at an offset if the rest starts with it. -/
theorem holds_singleton_iff {t : Text} {c : Char} {pos : Nat} :
    t.holds [c] pos ↔ t.rest pos = c :: t.rest (pos + 1) := by
  refine ⟨fun h => ?_, fun h => ?_⟩
  · rw [holds, Bool.and_eq_true, beq_iff_eq] at h
    exact rest_of_getElem? h.1
  · have hc := getElem?_of_rest_cons h
    have := (Array.getElem?_eq_some_iff.1 hc).1
    rw [holds, holds, hc, beq_self_eq_true, Bool.true_and, decide_eq_true_eq]
    omega

/-- A word stands at an offset of the text if the rest starts with it. -/
theorem holds_iff {t : Text} {w : Word} {pos : Nat} :
    t.holds w pos ↔ pos ≤ t.size ∧ w <+: t.rest pos := by
  induction w generalizing pos with
  | nil => simp [holds]
  | cons c w ih =>
    rw [holds, Bool.and_eq_true, beq_iff_eq, ih]
    constructor
    · rintro ⟨hc, hpos, v, hv⟩
      rw [rest_of_getElem? hc]
      exact ⟨Nat.le_of_succ_le hpos, v, by rw [List.cons_append, hv]⟩
    · rintro ⟨-, v, hv⟩
      have hc := getElem?_of_rest_cons hv.symm
      rw [rest_succ_of_cons hv.symm]
      exact ⟨hc, (Array.getElem?_eq_some_iff.1 hc).1, v, rfl⟩

/-- A word is the whole text if it stands at the beginning and is as long as the text. -/
theorem toList_eq_iff {t : Text} {w : Word} : t.toList = w ↔ t.holds w 0 ∧ w.length = t.size := by
  rw [holds_iff, rest_zero, and_iff_right (Nat.zero_le _), ← Array.length_toList]
  refine ⟨fun h => h ▸ ⟨List.prefix_rfl, rfl⟩, fun h => ?_⟩
  exact (h.1.eq_of_length h.2).symm

/-- The characters before an offset. -/
def before (t : Text) (pos : Nat) : Word := t.toList.take pos

@[simp] theorem before_zero (t : Text) : t.before 0 = [] := rfl

/-- The characters before a later offset come to those before an earlier one. -/
theorem before_add_of_rest {t : Text} {pos : Nat} {w v : Word} (h : t.rest pos = w ++ v) :
    t.before (pos + w.length) = t.before pos ++ w := by
  rw [before, before, List.take_add, show t.toList.drop pos = w ++ v from h, List.take_left]

/-- The characters between two offsets are those that the rest loses. -/
theorem slice_of_rest {t : Text} {pos : Nat} {w v : Word} (h : t.rest pos = w ++ v) :
    t.slice pos (pos + w.length : Nat) = w := by
  have hlen := congrArg List.length h
  rw [rest, List.length_drop, Array.length_toList, List.length_append] at hlen
  change (t.extract (min pos t.size) (min (pos + w.length) t.size)).toList = w
  rw [Array.toList_extract, List.extract_eq_take_drop]
  rcases Nat.le_total pos t.size with hpos | hpos
  · rw [Nat.min_eq_left hpos, Nat.min_eq_left (by omega), Nat.add_sub_cancel_left,
      show t.toList.drop pos = w ++ v from h, List.take_left]
  · rw [List.length_eq_zero_iff.1 (by omega : w.length = 0), List.length_nil, Nat.add_zero,
      Nat.sub_self, List.take_zero]

end Text

namespace Pattern

variable {t : Text}

/-- The number of characters of the class `k` that come next. -/
def run (t : Text) (k : CharClass) (pos : Nat) : Nat := ((t.rest pos).takeWhile k.accepts).length

theorem rest_run (t : Text) (k : CharClass) (pos : Nat) :
    t.rest (pos + run t k pos) = (t.rest pos).dropWhile k.accepts := by
  have h : (t.rest pos).takeWhile k.accepts ++ (t.rest pos).dropWhile k.accepts = t.rest pos :=
    List.takeWhile_append_dropWhile
  rw [Text.rest_add, run]
  exact (congrArg (List.drop _) h.symm).trans List.drop_left

theorem run_of_any {t : Text} {k : CharClass} {pos : Nat} (h : t[pos]?.any k.accepts) :
    run t k pos = run t k (pos + 1) + 1 := by
  obtain ⟨c, hc, hk⟩ := (Option.any_eq_true _ _).1 h
  rw [run, Text.rest_of_getElem? hc, List.takeWhile_cons_of_pos hk, List.length_cons, run]

theorem run_of_not_any {t : Text} {k : CharClass} {pos : Nat} (h : ¬t[pos]?.any k.accepts) :
    run t k pos = 0 := by
  rw [run, List.length_eq_zero_iff]
  rw [← Text.head?_rest] at h
  cases hw : t.rest pos with
  | nil => rfl
  | cons c w =>
    rw [hw, List.head?_cons, Option.any_some] at h
    exact List.takeWhile_cons_of_neg h

section

variable (enter : Word → Nat → Listing Extent) (k : CharClass) (minimum : Int) (count : Nat)
  {pos : Nat}

theorem repeats_charClass_of_any (h : t[pos]?.any k.accepts) :
    repeats t.size ((charClass k).listing t enter) minimum none count pos =
      .cons (.reach (pos + 1))
        (repeats t.size ((charClass k).listing t enter) minimum none (count + 1) (pos + 1) ++
          if minimum ≤ count then .single (.empty pos) else .nil) := by
  have hstop := lt_size_of_any h
  rw [repeats, Option.any_none, if_neg Bool.false_ne_true, listing, if_pos h, terminal,
    Listing.bind_cons_reach, Listing.bind_single, if_pos (by rw [Extent.empty_stop]; omega),
    Listing.cons_append]
  exact congrArg (fun l => Listing.cons _ (l ++ _)) (Extent.map_after_nil _)

theorem repeats_charClass_of_not_any (h : ¬t[pos]?.any k.accepts) :
    repeats t.size ((charClass k).listing t enter) minimum none count pos =
      if minimum ≤ count then .single (.empty pos) else .nil := by
  rw [repeats, Option.any_none, if_neg Bool.false_ne_true, listing, if_neg h, Listing.bind_nil,
    Listing.nil_append]

end

/-- A repeated class lists the whole run first, and is never broken off. -/
theorem repeats_charClass (enter : Word → Nat → Listing Extent) (k : CharClass) (minimum : Int)
    (count pos : Nat) :
    (repeats t.size ((charClass k).listing t enter) minimum none count pos).halt? = none ∧
    (repeats t.size ((charClass k).listing t enter) minimum none count pos).results.head? =
      if minimum ≤ (count + run t k pos : Nat) then some (.empty (pos + run t k pos))
      else none := by
  induction hn : run t k pos generalizing count pos with
  | zero =>
    rw [repeats_charClass_of_not_any _ _ _ _ fun h => by rw [run_of_any h] at hn; cases hn]
    rw [Nat.add_zero, Nat.add_zero]
    split <;> exact ⟨rfl, rfl⟩
  | succ n ih =>
    have hany : t[pos]?.any k.accepts := by
      by_contra h
      rw [run_of_not_any h] at hn
      cases hn
    obtain ⟨hhalt, hhead⟩ := ih (count + 1) (pos + 1) (by rw [run_of_any hany] at hn; omega)
    rw [repeats_charClass_of_any _ _ _ _ hany, Listing.halt?_cons, Listing.halt?_append, hhalt,
      Listing.results_cons_reach, Listing.results_append hhalt, List.head?_append, hhead,
      Nat.add_assoc, Nat.add_comm 1, Nat.add_assoc, Nat.add_comm 1]
    refine ⟨by split <;> rfl, ?_⟩
    split
    · rfl
    · -- Where the whole run is not enough, a part of it is not either.
      rw [if_neg (by omega)]
      rfl

end Pattern

variable {rules : Rules} {t : Text}

/-- A skip of a rule that repeats a class at least once goes to the end of the run. -/
theorem skipsTo_charClass_iff {name : Word} {k : CharClass}
    (hname : rules.lookup name = some (.repetition (.charClass k) 1 none)) {pos stop : Nat} :
    SkipsTo rules t name pos stop ↔ stop = pos + Pattern.run t k pos := by
  obtain ⟨hhalt, hhead⟩ := Pattern.repeats_charClass (t := t) (rules.listing t 0) k 1 0 pos
  have hlisting : rules.listing t 1 name pos = Pattern.repeats t.size
      ((Pattern.charClass k).listing t (rules.listing t 0)) 1 none 0 pos := by
    rw [Rules.listing, hname]
    rfl
  rw [← hlisting] at hhalt hhead
  have hskip : SkipsTo rules t name pos (pos + Pattern.run t k pos) := by
    by_cases hrun : Pattern.run t k pos = 0
    · rw [if_neg (by omega), List.head?_eq_none_iff] at hhead
      rw [hrun]
      exact .stay 1 hhead hhalt
    · rw [if_pos (by omega)] at hhead
      exact .first (e := .empty _) 1 hhead
  exact ⟨fun h => h.unique hskip, fun h => h ▸ hskip⟩

/-- What a class derives any number of times are characters of the class. -/
theorem derivesTimes_charClass_iff {k : CharClass} {n pos stop : Nat} {nodes : List Tree} :
    DerivesTimes rules t (.charClass k) n pos stop nodes ↔
      ∃ w : Word, (∀ c ∈ w, k.accepts c) ∧ w.length = n ∧ t.rest pos = w ++ t.rest stop ∧
        stop = pos + n ∧ nodes = [] := by
  induction n generalizing pos nodes with
  | zero =>
    refine ⟨fun h => ?_, ?_⟩
    · cases h
      exact ⟨[], nofun, rfl, rfl, rfl, rfl⟩
    · rintro ⟨w, -, -, -, rfl, rfl⟩
      exact .zero
  | succ n ih =>
    refine ⟨fun h => ?_, ?_⟩
    · cases h with
      | succ h _ rest =>
        cases h with
        | charClass hc hk =>
          obtain ⟨w, hw, rfl, hrest, rfl, rfl⟩ := ih.1 rest
          refine ⟨_ :: w, List.forall_mem_cons.2 ⟨hk, hw⟩, rfl, ?_, by omega, rfl⟩
          rw [Text.rest_of_getElem? hc, hrest, List.cons_append]
    · rintro ⟨w, hw, hlen, hrest, rfl, rfl⟩
      obtain ⟨c, w, rfl⟩ := List.exists_cons_of_length_eq_add_one hlen
      rw [List.length_cons, Nat.add_right_cancel_iff] at hlen
      rw [List.cons_append] at hrest
      obtain ⟨hc, hw⟩ := List.forall_mem_cons.1 hw
      refine .succ (.charClass (Text.getElem?_of_rest_cons hrest) hc) (Nat.lt_succ_self pos)
        (ih.2 ⟨w, hw, hlen, ?_, by omega, rfl⟩)
      rw [Text.rest_succ_of_cons hrest]

end Descent
