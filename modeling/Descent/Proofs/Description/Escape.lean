import Descent.Proofs.Description.Meaning
import Mathlib.Algebra.Ring.Parity
import Mathlib.Data.List.DropRight
import Mathlib.Data.List.Forall2

/-!
# Escapes, piece by piece

A body is spelled from the left, where a backslash takes the next character with it, even if that
is a backslash as well. So a body can be cut in two parts that are spelled on their own, unless the
first part ends in a backslash that has taken no character yet (`endsUnpaired`) and the second one
has a character to be taken (`unescape_append_eq_iff`). All that matters before the cut is whether
the number of backslashes at its end is even (`unescape_append_eq_iff_even`).

A word can therefore be written character by character, each one in any of its ways (`Writes`),
whatever is written before and after it. The word is spelled again, and the characters that are
told to be escaped are those that are written with a backslash (`unescape_piecewise`).
-/

namespace Descent

variable {a b s : Word} {quote c : Char} {spelled later : List (Char × Bool)}

/-! ## Pairs -/

/-- The word ends in an unpaired backslash. Read from the left, a backslash is unpaired until the
    next character comes, which is paired with it, whatever it is. -/
def endsUnpaired (w : Word) : Bool :=
  w.foldl (fun unpaired c => !unpaired && c = '\\') false

theorem endsUnpaired_cons_of_ne (hc : c ≠ '\\') (w : Word) :
    endsUnpaired (c :: w) = endsUnpaired w := by
  rw [endsUnpaired, List.foldl_cons, decide_eq_false hc, Bool.and_false, endsUnpaired]

theorem endsUnpaired_pair (c : Char) (w : Word) :
    endsUnpaired ('\\' :: c :: w) = endsUnpaired w := rfl

theorem endsUnpaired_concat (w : Word) (c : Char) :
    endsUnpaired (w ++ [c]) = (!endsUnpaired w && c = '\\') := by
  rw [endsUnpaired, List.foldl_append, List.foldl_cons, List.foldl_nil, endsUnpaired]

/-- In a run of backslashes every second one is paired with the one before, so the last one is
    unpaired if their number is odd. -/
theorem endsUnpaired_iff_odd (w : Word) :
    endsUnpaired w ↔ Odd (w.rtakeWhile (· = '\\')).length := by
  induction w using List.reverseRecOn with
  | nil => decide
  | append_singleton w c ih =>
    rw [endsUnpaired_concat, List.rtakeWhile_concat]
    by_cases hc : c = '\\'
    · simp [hc, ← ih, Nat.odd_add_one]
    · simp [hc]

/-! ## Cutting a body -/

theorem Resolves.append (ha : Resolves a spelled) (h : ¬endsUnpaired a) (hb : Resolves b later) :
    Resolves (a ++ b) (spelled ++ later) := by
  induction ha with
  | nil => exact hb
  | plain hc _ ih =>
    rw [endsUnpaired_cons_of_ne hc] at h
    exact .plain hc (ih h)
  | escaped _ ih =>
    rw [endsUnpaired_pair] at h
    exact .escaped (ih h)
  | last => exact absurd rfl h

theorem unescape_append (h : ¬endsUnpaired a) (b : Word) :
    unescape (a ++ b) = unescape a ++ unescape b :=
  resolves_iff.1 ((resolves_unescape a).append h (resolves_unescape b))

/-- An unpaired backslash takes the first character that is written after it. -/
theorem unescape_append_ne (h : endsUnpaired a) (hb : b ≠ []) :
    unescape (a ++ b) ≠ unescape a ++ unescape b := by
  cases a using List.reverseRecOn with
  | nil => cases h
  | append_singleton v d =>
    rw [endsUnpaired_concat, Bool.and_eq_true, Bool.not_eq_true', decide_eq_true_eq] at h
    obtain ⟨hv, rfl⟩ := h
    replace hv : ¬endsUnpaired v := Bool.eq_false_iff.1 hv
    obtain ⟨c, b, rfl⟩ := List.exists_cons_of_ne_nil hb
    rw [List.append_assoc, unescape_append hv, unescape_append hv ['\\'], List.append_assoc, Ne,
      List.append_cancel_left_eq]
    -- The backslash is part of an escape on the left, and stands for itself on the right.
    intro heq
    exact Bool.noConfusion (congrArg Prod.snd (List.cons.inj heq).1)

theorem unescape_append_eq_iff :
    unescape (a ++ b) = unescape a ++ unescape b ↔ ¬endsUnpaired a ∨ b = [] := by
  constructor
  · intro h
    by_contra hnot
    rw [not_or, not_not] at hnot
    exact unescape_append_ne hnot.1 hnot.2 h
  · rintro (h | rfl)
    · exact unescape_append h b
    · rw [List.append_nil, unescape, List.append_nil]

theorem unescape_append_eq_iff_even :
    unescape (a ++ b) = unescape a ++ unescape b ↔
      Even (a.rtakeWhile (· = '\\')).length ∨ b = [] := by
  rw [unescape_append_eq_iff, endsUnpaired_iff_odd, Nat.not_odd_iff_even]

/-! ## Pieces -/

/-- How a character may be written between two quotes. -/
inductive Writes (quote : Char) : (c : Char) → (piece : Word) → Prop
  /-- As it is, unless it is the quote or a backslash. -/
  | plain {c : Char} (hquote : c ≠ quote) (hslash : c ≠ '\\') : Writes quote c [c]
  /-- After a backslash, unless that means something else. -/
  | backslashed {c : Char} (hn : c ≠ 'n') (ht : c ≠ 't') (hr : c ≠ 'r') : Writes quote c ['\\', c]
  /-- A line break by its letter. -/
  | lineBreak : Writes quote '\n' ['\\', 'n']
  /-- A tab by its letter. -/
  | tab : Writes quote '\t' ['\\', 't']
  /-- A return by its letter. -/
  | carriageReturn : Writes quote '\r' ['\\', 'r']

/-- The piece is written with a backslash. -/
def isBackslashed (piece : Word) : Bool := piece.head? = some '\\'

/-- Any character after a backslash writes one. -/
theorem writes_unescaped (quote c : Char) : Writes quote (unescaped c) ['\\', c] := by
  rw [unescaped]
  split
  · subst c
    exact .lineBreak
  split
  · subst c
    exact .tab
  split
  · subst c
    exact .carriageReturn
  · exact .backslashed ‹_› ‹_› ‹_›

/-- A piece spells its character, and tells it to be escaped if it has a backslash. -/
theorem Writes.resolves {piece : Word} (h : Writes quote c piece) :
    Resolves piece [(c, isBackslashed piece)] := by
  cases h with
  | plain _ hslash =>
    have hplain : isBackslashed [c] = false := by simp [isBackslashed, hslash]
    rw [hplain]
    exact .plain hslash .nil
  | backslashed hn ht hr =>
    have hself : unescaped c = c := by rw [unescaped, if_neg hn, if_neg ht, if_neg hr]
    have h := Resolves.escaped (c := c) .nil
    rwa [hself] at h
  | lineBreak | tab | carriageReturn => exact .escaped .nil

theorem Writes.not_endsUnpaired {piece : Word} (h : Writes quote c piece) :
    ¬endsUnpaired piece := by
  cases h with
  | plain _ hslash => simp [endsUnpaired, hslash]
  | backslashed | lineBreak | tab | carriageReturn => exact nofun

theorem unescape_written {pieces : List Word} (h : List.Forall₂ (Writes quote) s pieces) :
    unescape pieces.flatten = s.zip (pieces.map isBackslashed) := by
  induction h with
  | nil => rfl
  | cons h _ ih =>
    rw [List.flatten_cons, unescape_append h.not_endsUnpaired, resolves_iff.1 h.resolves, ih,
      List.map_cons, List.zip_cons_cons, List.singleton_append]

theorem map_fst_unescape_written {pieces : List Word} (h : List.Forall₂ (Writes quote) s pieces) :
    (unescape pieces.flatten).map (·.1) = s := by
  rw [unescape_written h]
  exact List.map_fst_zip (by rw [List.length_map, h.length_eq])

/-- Two parts of a body are spelled on their own if the first one does not end in an unpaired
    backslash, and otherwise only if the second one is empty.

    So a word that is written character by character is spelled again, however each character is
    written, and the characters that are written with a backslash are told to be escaped. -/
theorem unescape_piecewise :
    (∀ a b, unescape (a ++ b) = unescape a ++ unescape b ↔ ¬endsUnpaired a ∨ b = []) ∧
    ∀ (quote : Char) (s : Word) (pieces : List Word), List.Forall₂ (Writes quote) s pieces →
      (unescape pieces.flatten).map (·.1) = s ∧
      (unescape pieces.flatten).map (·.2) = pieces.map isBackslashed := by
  refine ⟨fun _ _ => unescape_append_eq_iff, fun quote s pieces h => ?_⟩
  refine ⟨map_fst_unescape_written h, ?_⟩
  rw [unescape_written h]
  exact List.map_snd_zip (by rw [List.length_map, h.length_eq])

/-- The body `it\'\s\t\\` is a word of six characters, and a body can be cut after two backslashes,
    but not after one or three. -/
theorem unescape_piecewise_its :
    let s := ['i', 't', '\'', 's', '\t', '\\']
    let pieces := [['i'], ['t'], ['\\', '\''], ['\\', 's'], ['\\', 't'], ['\\', '\\']]
    List.Forall₂ (Writes '\'') s pieces ∧
      (unescape pieces.flatten).map (·.1) = s ∧
      (unescape pieces.flatten).map (·.2) = [false, false, true, true, true, true] ∧
      unescape (['\\', '\\'] ++ ['n']) = unescape ['\\', '\\'] ++ unescape ['n'] ∧
      unescape (['\\'] ++ ['n']) ≠ unescape ['\\'] ++ unescape ['n'] ∧
      unescape (['\\', '\\', '\\'] ++ ['n']) ≠ unescape ['\\', '\\', '\\'] ++ unescape ['n'] := by
  intro s pieces
  have h : List.Forall₂ (Writes '\'') s pieces :=
    .cons (.plain (by decide) (by decide)) <| .cons (.plain (by decide) (by decide)) <|
    .cons (.backslashed (by decide) (by decide) (by decide)) <|
    .cons (.backslashed (by decide) (by decide) (by decide)) <| .cons .tab <|
    .cons (.backslashed (by decide) (by decide) (by decide)) .nil
  obtain ⟨hcut, hwritten⟩ := unescape_piecewise
  obtain ⟨hs, hescaped⟩ := hwritten '\'' s pieces h
  refine ⟨h, hs, hescaped, (hcut _ _).2 (.inl (by decide)), ?_, ?_⟩
  · exact fun heq => absurd ((hcut _ _).1 heq) (by decide)
  · exact fun heq => absurd ((hcut _ _).1 heq) (by decide)

end Descent
