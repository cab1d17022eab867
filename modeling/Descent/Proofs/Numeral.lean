import Descent.Numeral
import Mathlib.Data.List.TakeWhile
import Mathlib.Tactic.Common
import Mathlib.Tactic.Ring

/-!
# The value of a numeral

A word of decimal digits, of whichever scripts, has a *positional value*
(`Numeral.positional`). To read a numeral is to find that value, at any length: a digit is
neither a blank nor a sign nor an underscore, so a slice of digits is read as it stands,
and every slice is added after as many new places as it has digits (`Numeral.read_eq`).

A number is written as its decimal numeral, however many slices that takes
(`Numeral.write_eq`).
-/

namespace Descent.Numeral

/-- The number that a digit gives after the number `n`. Other characters count as zero. -/
def appendDigit (n : Nat) (c : Char) : Nat := n * 10 + (digit? c).getD 0

/-- The positional value of decimal digits. -/
def positional (w : Word) : Nat := w.foldl appendDigit 0

/-- The word has only decimal digits. -/
def Digital (w : Word) : Prop := ∀ c ∈ w, (digit? c).isSome

theorem Digital.tail {c : Char} {w : Word} (h : Digital (c :: w)) : Digital w :=
  fun _ hc => h _ (List.mem_cons_of_mem _ hc)

theorem foldl_appendDigit (n : Nat) (w : Word) :
    w.foldl appendDigit n = n * 10 ^ w.length + positional w := by
  rw [positional]
  induction w generalizing n with
  | nil => simp
  | cons c w ih =>
    rw [List.foldl_cons, List.foldl_cons, ih, ih (appendDigit 0 c), List.length_cons, appendDigit,
      appendDigit, Nat.pow_succ]
    ring

/-! ## Digits are nothing else -/

/-- A digit stands in a row of ten from a zero on. -/
theorem exists_zero_of_digit? {c : Char} (h : (digit? c).isSome) :
    ∃ z ∈ zeros, z ≤ c.toNat ∧ c.toNat < z + 10 := by
  rw [digit?, Option.isSome_map, List.find?_isSome] at h
  simpa using h

theorem not_isBlank_of_digit? {c : Char} (h : (digit? c).isSome) : isBlank c = false := by
  obtain ⟨z, hz, hle, hlt⟩ := exists_zero_of_digit? h
  have hsingle : ∀ z ∈ zeros, ∀ b ∈ [0x9, 0xa, 0xb, 0xc, 0xd, 0x20, 0x85, 0xa0, 0x1680, 0x2028,
      0x2029, 0x202f, 0x205f, 0x3000], ¬(z ≤ b ∧ b < z + 10) := by decide
  have hrow : ∀ z ∈ zeros, z + 10 ≤ 0x2000 ∨ 0x200a < z := by decide
  have hc := fun hmem => hsingle z hz c.toNat hmem ⟨hle, hlt⟩
  have hout := hrow z hz
  rw [isBlank, Bool.or_eq_false_iff, decide_eq_false_iff_not, Bool.and_eq_false_iff,
    decide_eq_false_iff_not, decide_eq_false_iff_not]
  exact ⟨hc, by omega⟩

theorem ne_of_digit? {c : Char} (h : (digit? c).isSome) : c ≠ '-' ∧ c ≠ '+' ∧ c ≠ '_' := by
  obtain ⟨z, hz, hle, hlt⟩ := exists_zero_of_digit? h
  have hsign : ∀ z ∈ zeros, 48 ≤ z ∧ (z + 10 ≤ 95 ∨ 95 < z) := by decide
  have := hsign z hz
  refine ⟨?_, ?_, ?_⟩ <;> rintro rfl <;> simp at hle hlt <;> omega

/-! ## Reading -/

theorem readDigits_cons {value : Nat} {afterDigit : Bool} {c : Char} (w : Word)
    (h : (digit? c).isSome) :
    readDigits value afterDigit (c :: w) = readDigits (appendDigit value c) true w := by
  obtain ⟨d, hd⟩ := Option.isSome_iff_exists.1 h
  rw [readDigits, if_neg (ne_of_digit? h).2.2, appendDigit, hd, Option.getD_some]

theorem readDigits_eq (value : Nat) {w : Word} (h : Digital w) :
    readDigits value true w = some (w.foldl appendDigit value) := by
  induction w generalizing value with
  | nil => rfl
  | cons c w ih =>
    rw [readDigits_cons w (h c List.mem_cons_self), ih _ h.tail, List.foldl_cons]

theorem readSigned_eq {c : Char} {w : Word} (h : Digital (c :: w)) :
    readSigned (c :: w) = some (positional (c :: w) : Int) := by
  have hc := h c List.mem_cons_self
  obtain ⟨hminus, hplus, -⟩ := ne_of_digit? hc
  unfold readSigned
  split
  · rename_i heq
    exact absurd (List.cons.inj heq).1 hminus
  · rename_i heq
    exact absurd (List.cons.inj heq).1 hplus
  · rw [readDigits_cons w hc, readDigits_eq _ h.tail, positional, List.foldl_cons]
    rfl

/-- There are no blanks at the ends of a word of digits. -/
theorem trim_eq {w : Word} (h : Digital w) : trim w = w := by
  have hdrop : ∀ v : Word, Digital v → v.dropWhile isBlank = v := fun v hv =>
    List.dropWhile_eq_self_iff.2 fun _ hblank => by
      rw [not_isBlank_of_digit? (hv _ (List.getElem_mem _))] at hblank
      cases hblank
  rw [trim, hdrop w h, hdrop w.reverse fun c hc => h c (List.mem_reverse.1 hc),
    List.reverse_reverse]

theorem readSlice_eq {c : Char} {w : Word} (h : Digital (c :: w)) :
    readSlice (c :: w) = .ok (positional (c :: w) : Int) := by
  rw [readSlice, trim_eq h, readSigned_eq h]

/-- A slice of digits is read digit by digit. -/
theorem readNext_eq (n : Nat) {c : Char} {w : Word} (h : Digital (c :: w)) :
    readNext n (c :: w) = .ok ((c :: w).foldl appendDigit n : Nat) := by
  rw [readNext, readSlice_eq h, foldl_appendDigit]
  push_cast
  rfl

/-- Slices are read as their digits are, one after the other. -/
theorem foldlM_slices (width n : Nat) {w : Word} (h : Digital w) :
    (slices width w).foldlM readNext (n : Int) = .ok (w.foldl appendDigit n : Nat) := by
  induction w using slices.induct width generalizing n with
  | case1 => rw [slices]; rfl
  | case2 c w ih =>
    have hsplit : c :: w = (c :: w.take width) ++ w.drop width := by
      rw [List.cons_append, List.take_append_drop]
    rw [slices, List.foldlM_cons, readNext_eq n fun d hd => h d ?_]
    · rw [hsplit, List.foldl_append]
      exact ih _ fun d hd => h d (List.mem_cons_of_mem _ (List.mem_of_mem_drop hd))
    · rw [hsplit]
      exact List.mem_append_left _ hd

/-- The number read from digits is their positional value. -/
theorem read_eq {w : Word} (h : Digital w) : read w = .ok (positional w : Int) :=
  foldlM_slices (sliceWidth - 1) 0 h

/-! ## ASCII digits -/

/-- The value of an ASCII digit. -/
theorem digit?_of_isDigit {c : Char} (h : c.isDigit) : digit? c = some (c.toNat - '0'.toNat) := by
  rw [Char.isDigit, Bool.and_eq_true, decide_eq_true_eq, decide_eq_true_eq] at h
  have hle : 0x30 ≤ c.toNat := UInt32.le_iff_toNat_le.1 h.1
  have hlt : c.toNat ≤ 0x39 := UInt32.le_iff_toNat_le.1 h.2
  rw [digit?, zeros, List.find?_cons_of_pos]
  · rfl
  · simp only [Bool.and_eq_true, decide_eq_true_eq]
    omega

theorem digital_of_isDigit {w : Word} (h : ∀ c ∈ w, c.isDigit) : Digital w := fun c hc => by
  rw [digit?_of_isDigit (h c hc)]
  rfl

theorem foldl_appendDigit_eq_ofDigitChars (n : Nat) {w : Word} (h : ∀ c ∈ w, c.isDigit) :
    w.foldl appendDigit n = Nat.ofDigitChars 10 w n := by
  induction w generalizing n with
  | nil => rw [List.foldl_nil, Nat.ofDigitChars_nil]
  | cons c w ih =>
    rw [List.foldl_cons, ih _ fun d hd => h d (List.mem_cons_of_mem _ hd), Nat.ofDigitChars_cons,
      appendDigit, digit?_of_isDigit (h c List.mem_cons_self), Option.getD_some, Nat.mul_comm]

/-- The number read from ASCII digits is their value as a numeral. -/
theorem read_eq_ofDigitChars {w : Word} (h : ∀ c ∈ w, c.isDigit) :
    read w = .ok (Nat.ofDigitChars 10 w 0 : Int) := by
  rw [read_eq (digital_of_isDigit h), positional, foldl_appendDigit_eq_ofDigitChars 0 h]

/-! ## Writing -/

/-- An ASCII digit is the numeral of its value. -/
theorem toDigits_of_isDigit {c : Char} (h : c.isDigit) :
    c.toNat - '0'.toNat < 10 ∧ Nat.toDigits 10 (c.toNat - '0'.toNat) = [c] := by
  have hle : '0'.toNat ≤ c.toNat ∧ c.toNat ≤ '0'.toNat + 9 := by
    simpa [Char.isDigit, UInt32.le_iff_toNat_le] using h
  have hlt : c.toNat - '0'.toNat < 10 := by omega
  refine ⟨hlt, ?_⟩
  rw [Nat.toDigits_of_lt_base hlt, List.singleton_inj, ← Char.toNat_inj,
    Nat.toNat_digitChar_of_lt_ten hlt]
  exact Nat.add_sub_of_le hle.1

/-- Digits behind a numeral make the numeral of the number that they give after it. -/
theorem toDigits_append {n : Nat} (hn : 0 < n) {w : Word} (h : ∀ c ∈ w, c.isDigit) :
    Nat.toDigits 10 n ++ w = Nat.toDigits 10 (Nat.ofDigitChars 10 w n) := by
  induction w generalizing n with
  | nil => rw [List.append_nil, Nat.ofDigitChars_nil]
  | cons c w ih =>
    obtain ⟨hlt, hc⟩ := toDigits_of_isDigit (h c List.mem_cons_self)
    have happend := Nat.toDigits_append_toDigits (by decide : 1 < 10) hn hlt
    rw [hc] at happend
    rw [Nat.ofDigitChars_cons, ← ih (by omega) fun d hd => h d (List.mem_cons_of_mem _ hd),
      ← happend, List.append_assoc, List.singleton_append]

theorem isDigit_of_mem_padded {width n : Nat} {c : Char} (h : c ∈ padded width n) : c.isDigit := by
  rw [padded, List.mem_append, List.mem_replicate] at h
  obtain ⟨-, rfl⟩ | h := h
  · rfl
  · exact Nat.isDigit_of_mem_toDigits (by decide) (by decide) h

/-- A padded numeral stands for as many new places as it is wide. -/
theorem ofDigitChars_padded {width n : Nat} (h : n < 10 ^ (width + 1)) (before : Nat) :
    Nat.ofDigitChars 10 (padded (width + 1) n) before = 10 ^ (width + 1) * before + n := by
  have hlen : (digits n).length ≤ width + 1 :=
    (Nat.length_toDigits_le_iff (by decide) (Nat.succ_pos width)).2 h
  rw [padded, Nat.ofDigitChars_append, Nat.ofDigitChars_replicate_zero,
    Nat.ofDigitChars_eq_ofDigitChars_zero, digits, Nat.ofDigitChars_ten_toDigits, ← Nat.mul_assoc,
    ← Nat.pow_add, ← digits, Nat.add_sub_of_le hlen]

/-- Slices make up the numeral. -/
theorem writeSlices_eq (width n : Nat) (after : Word) :
    writeSlices width n after = digits n ++ after := by
  induction n, after using writeSlices.induct width with
  | case1 n after h => rw [writeSlices, if_pos h]
  | case2 n after h ih =>
    have hpos : 0 < 10 ^ (width + 1) := Nat.pow_pos (by decide)
    have hn : 0 < n / 10 ^ (width + 1) := Nat.div_pos (Nat.not_lt.1 h) hpos
    rw [writeSlices, if_neg h, ih, ← List.append_assoc, digits]
    refine congrArg (· ++ after) ?_
    -- The slice is put behind the numeral of what is left of the number.
    refine (toDigits_append hn fun _ => isDigit_of_mem_padded).trans ?_
    refine congrArg (Nat.toDigits 10) ?_
    exact (ofDigitChars_padded (Nat.mod_lt n hpos) _).trans (Nat.div_add_mod n _)

/-- A number of any length is written as its decimal numeral. -/
theorem write_eq (n : Nat) : write n = Nat.toDigits 10 n := by
  rw [write, writeSlices_eq, List.append_nil, digits]

end Descent.Numeral
