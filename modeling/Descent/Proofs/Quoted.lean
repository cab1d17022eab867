import Descent.Text.Quoted
import Mathlib.Algebra.Group.Nat.Defs
import Mathlib.Tactic.Common

/-!
# Quoted words read back

Between its quotes, a word is written character by character, each of them in one of three ways
(`Text.Writes`). A character can be read off the beginning of what is written, whatever comes after
it (`Text.readChar`), and is never written with the closing quote in front. So a quoted word tells
the word and where it ends (`Text.quoted_append_inj`), and it stays on one line
(`Text.lineBreak_not_mem_quoted`).
-/

namespace Descent.Text

variable {quote c : Char} {w v : Word}

/-! ## Code points -/

/-- The value of a hexadecimal digit in lower case. -/
def hexValue (c : Char) : Nat :=
  if c.isDigit then c.toNat - '0'.toNat else c.toNat - 'a'.toNat + 10

/-- The value of hexadecimal digits in lower case. -/
def readHex (w : Word) : Nat := w.foldl (fun n c => n * 16 + hexValue c) 0

theorem hexValue_digitChar : ∀ d < 16, hexValue (Nat.digitChar d) = d := by decide

theorem length_hexDigits (width n : Nat) : (hexDigits width n).length = width := by
  induction width generalizing n with
  | zero => rfl
  | succ width ih => rw [hexDigits, List.length_append, ih, List.length_singleton]

/-- As many digits as there are tell the number. -/
theorem readHex_hexDigits {width n : Nat} (h : n < 16 ^ width) :
    readHex (hexDigits width n) = n := by
  induction width generalizing n with
  | zero => exact (Nat.lt_one_iff.1 h).symm
  | succ width ih =>
    have hdiv : n / 16 < 16 ^ width := Nat.div_lt_of_lt_mul (by rwa [← Nat.pow_succ'])
    have hread := ih hdiv
    rw [readHex] at hread
    rw [hexDigits, readHex, List.foldl_append, hread, List.foldl_cons, List.foldl_nil,
      hexValue_digitChar _ (Nat.mod_lt n (by decide))]
    omega

theorem lineBreak_not_mem_hexDigits (width n : Nat) : '\n' ∉ hexDigits width n := by
  have hdigit : ∀ d < 16, Nat.digitChar d ≠ '\n' := by decide
  induction width generalizing n with
  | zero => exact List.not_mem_nil
  | succ width ih =>
    rw [hexDigits, List.mem_append, List.mem_singleton, not_or]
    exact ⟨ih _, (hdigit _ (Nat.mod_lt n (by decide))).symm⟩

/-! ## Characters between quotes -/

/-- How many hexadecimal digits come after a backslash and the mark. -/
def hexWidth? (mark : Char) : Option Nat :=
  if mark = 'x' then some 2 else if mark = 'u' then some 4 else if mark = 'U' then some 8 else none

/-- The character that is meant by another one after a backslash. -/
def marked (mark : Char) : Char :=
  if mark = 'n' then '\n' else if mark = 'r' then '\r' else if mark = 't' then '\t' else mark

/-- The first character that is written in a word between quotes, and what comes after it. -/
def readChar : (w : Word) → Option (Char × Word)
  | '\\' :: mark :: w =>
    match hexWidth? mark with
    | some width => some (Char.ofNat (readHex (w.take width)), w.drop width)
    | none => some (marked mark, w)
  | c :: w => some (c, w)
  | [] => none

theorem readChar_mark {mark : Char} (h : hexWidth? mark = none) (w : Word) :
    readChar ('\\' :: mark :: w) = some (marked mark, w) := by
  rw [readChar, h]

theorem readChar_hexDigits {mark : Char} {width : Nat} (hmark : hexWidth? mark = some width)
    (hc : c.toNat < 16 ^ width) (w : Word) :
    readChar ('\\' :: mark :: (hexDigits width c.toNat ++ w)) = some (c, w) := by
  rw [readChar, hmark]
  dsimp only
  rw [List.take_left' (length_hexDigits _ _), List.drop_left' (length_hexDigits _ _),
    readHex_hexDigits hc, Char.ofNat_toNat]

theorem readChar_of_ne (hc : c ≠ '\\') (w : Word) : readChar (c :: w) = some (c, w) := by
  rw [readChar]
  rintro _ _ rfl
  exact absurd rfl hc

/-- How a character is written between two quotes. -/
inductive Writes (quote c : Char) : (w : Word) → Prop
  /-- By a mark after a backslash. -/
  | marked {mark : Char} (hwidth : hexWidth? mark = none) (hmarked : marked mark = c)
    (hline : mark ≠ '\n') : Writes quote c ['\\', mark]
  /-- As it is. -/
  | plain (hquote : c ≠ quote) (hslash : c ≠ '\\') (hline : c ≠ '\n') : Writes quote c [c]
  /-- By its code point. -/
  | codePoint {mark : Char} {width : Nat} (hwidth : hexWidth? mark = some width)
    (hc : c.toNat < 16 ^ width) : Writes quote c ('\\' :: mark :: hexDigits width c.toNat)

theorem writes_codePoint (quote c : Char) : Writes quote c (codePoint c) := by
  rw [codePoint]
  split
  · exact .codePoint (by decide) ‹_›
  · split
    · exact .codePoint (by decide) ‹_›
    · exact .codePoint (by decide) c.val.toNat_lt

theorem writes_escape (hquote : quote = '\'' ∨ quote = '"') (c : Char) :
    Writes quote c (escape quote c) := by
  rw [escape]
  split
  · rename_i hc
    obtain rfl | rfl := hc
    · obtain rfl | rfl := hquote <;> exact .marked (by decide) (by decide) (by decide)
    · exact .marked (by decide) (by decide) (by decide)
  rename_i hc
  rw [not_or] at hc
  split
  · rename_i hc
    exact .marked (by decide) hc.symm (by decide)
  rename_i hline
  split
  · rename_i hc
    exact .marked (by decide) hc.symm (by decide)
  split
  · rename_i hc
    exact .marked (by decide) hc.symm (by decide)
  split
  · exact .plain hc.1 hc.2 hline
  · exact writes_codePoint quote c

/-- A character is read off the beginning of what is written for it. -/
theorem Writes.readChar_append (h : Writes quote c v) (w : Word) :
    readChar (v ++ w) = some (c, w) := by
  cases h with
  | marked hwidth hmarked => exact (readChar_mark hwidth w).trans (by rw [hmarked])
  | plain _ hslash => exact readChar_of_ne hslash w
  | codePoint hwidth hc => exact readChar_hexDigits hwidth hc w

/-- No character is written with the closing quote in front. -/
theorem Writes.ne_quote (h : Writes quote c v) (hquote : quote ≠ '\\') (w u : Word) :
    v ++ w ≠ quote :: u := by
  intro heq
  cases h with
  | marked => exact hquote (List.cons.inj heq).1.symm
  | plain hc => exact hc (List.cons.inj heq).1
  | codePoint => exact hquote (List.cons.inj heq).1.symm

theorem Writes.lineBreak_not_mem (h : Writes quote c v) : '\n' ∉ v := by
  cases h with
  | marked _ _ hline => simpa using hline.symm
  | plain _ _ hline => simpa using hline.symm
  | @codePoint mark width hwidth hc =>
    have hmark : mark ≠ '\n' := by
      rintro rfl
      exact absurd hwidth (by simp [hexWidth?])
    simpa [hmark.symm] using lineBreak_not_mem_hexDigits width c.toNat

/-! ## Words in quotes -/

theorem quoteFor_eq (w : Word) : quoteFor w = '\'' ∨ quoteFor w = '"' := by
  rw [quoteFor]
  split
  · exact .inr rfl
  · exact .inl rfl

/-- What is written between quotes ends at the first closing quote, and tells the word. -/
theorem flatMap_escape_append_inj (hquote : quote = '\'' ∨ quote = '"') {rest rest' : Word}
    (h : v.flatMap (escape quote) ++ quote :: rest = w.flatMap (escape quote) ++ quote :: rest') :
    v = w ∧ rest = rest' := by
  have hslash : quote ≠ '\\' := by obtain rfl | rfl := hquote <;> decide
  induction v generalizing w with
  | nil =>
    cases w with
    | nil => exact ⟨rfl, (List.cons.inj h).2⟩
    | cons d w =>
      rw [List.flatMap_cons, List.append_assoc] at h
      exact absurd h.symm ((writes_escape hquote d).ne_quote hslash _ _)
  | cons c v ih =>
    cases w with
    | nil =>
      rw [List.flatMap_cons, List.append_assoc] at h
      exact absurd h ((writes_escape hquote c).ne_quote hslash _ _)
    | cons d w =>
      rw [List.flatMap_cons, List.flatMap_cons, List.append_assoc, List.append_assoc] at h
      have hread := congrArg readChar h
      rw [(writes_escape hquote c).readChar_append, (writes_escape hquote d).readChar_append,
        Option.some.injEq, Prod.mk.injEq] at hread
      obtain ⟨hvw, hrest⟩ := ih hread.2
      exact ⟨by rw [hread.1, hvw], hrest⟩

/-- A quoted word tells the word, and where it ends. -/
theorem quoted_append_inj {rest rest' : Word} (h : quoted v ++ rest = quoted w ++ rest') :
    v = w ∧ rest = rest' := by
  simp only [quoted, List.cons_append, List.append_assoc, List.nil_append, List.cons.injEq] at h
  obtain ⟨hquote, h⟩ := h
  rw [← hquote] at h
  exact flatMap_escape_append_inj (quoteFor_eq v) h

theorem quoted_inj : quoted v = quoted w ↔ v = w := by
  refine ⟨fun h => ?_, congrArg quoted⟩
  exact (quoted_append_inj (congrArg (· ++ []) h)).1

/-- A quoted word stands on one line. -/
theorem lineBreak_not_mem_quoted (w : Word) : '\n' ∉ quoted w := by
  have hquote := quoteFor_eq w
  have hline : quoteFor w ≠ '\n' := by obtain h | h := hquote <;> rw [h] <;> decide
  rw [quoted, List.mem_cons, List.mem_append, List.mem_flatMap, List.mem_singleton, not_or, not_or]
  exact ⟨hline.symm, fun ⟨c, _, hc⟩ => (writes_escape hquote c).lineBreak_not_mem hc, hline.symm⟩

end Descent.Text
