import Descent.Proofs.Numeral
import Mathlib.Data.List.Induction
import Mathlib.Data.Nat.Digits.Defs

/-!
# Canonical numerals

The *canonical* numeral of a number has only ASCII digits, and none in front that could be left out
(`Numeral.IsCanonical`). A canonical numeral is the decimal numeral of its value
(`IsCanonical.toDigits_eq`), so there is exactly one for every number.

Numbers are written canonically and read back, and digits that are read and written again lose
the zeros in front (`Numeral.read_writeInt_canonical`). None of this depends on where the numeral is
cut into slices.
-/

namespace Descent.Numeral

variable {w : Word} {c : Char}

/-! ## Positions -/

/-- The positional value is that of the values of the digits, the last one first. -/
theorem positional_eq_ofDigits (h : Digital w) :
    positional w = Nat.ofDigits 10 (w.filterMap digit?).reverse := by
  induction w using List.reverseRecOn with
  | nil => rfl
  | append_singleton w c ih =>
    obtain ⟨d, hd⟩ := Option.isSome_iff_exists.1 (h c (by simp))
    have hw := ih fun b hb => h b (List.mem_append_left _ hb)
    rw [positional, List.foldl_append, List.foldl_cons, List.foldl_nil, ← positional, hw,
      List.filterMap_append, List.filterMap_cons_some hd, List.filterMap_nil, List.reverse_append,
      List.reverse_singleton, List.singleton_append, Nat.ofDigits_cons, appendDigit, hd,
      Option.getD_some, Nat.mul_comm, Nat.add_comm]

/-! ## No zeros in front -/

/-- The word is a numeral of ASCII digits, and has no zero in front unless it is zero itself. -/
structure IsCanonical (w : Word) : Prop where
  /-- There are only ASCII digits. -/
  isDigit : ∀ c ∈ w, c.isDigit
  /-- There are some. -/
  ne_nil : w ≠ []
  /-- Only the numeral of zero begins with a zero. -/
  eq_zero : w.head? = some '0' → w = ['0']

/-- The digits without the zeros in front, or a single zero if nothing is left. -/
def withoutZeros : (w : Word) → Word
  | [] => ['0']
  | c :: w => if c = '0' then withoutZeros w else c :: w

theorem isCanonical_withoutZeros (h : ∀ c ∈ w, c.isDigit) : IsCanonical (withoutZeros w) := by
  induction w with
  | nil => exact ⟨List.forall_mem_singleton.2 rfl, List.cons_ne_nil _ _, fun _ => rfl⟩
  | cons c w ih =>
    rw [withoutZeros]
    split
    · exact ih fun d hd => h d (List.mem_cons_of_mem _ hd)
    · rename_i hc
      exact ⟨h, List.cons_ne_nil _ _, fun hhead => absurd (Option.some.inj hhead) hc⟩

/-- Zeros in front do not change the value. -/
theorem ofDigitChars_withoutZeros (w : Word) :
    Nat.ofDigitChars 10 (withoutZeros w) 0 = Nat.ofDigitChars 10 w 0 := by
  induction w with
  | nil => rfl
  | cons c w ih =>
    rw [withoutZeros]
    split
    · rename_i hc
      rw [ih, hc, Nat.ofDigitChars_cons]
      rfl
    · rfl

/-- An ASCII digit other than zero has a value above zero. -/
theorem toNat_pos_of_isDigit (h : c.isDigit) (hc : c ≠ '0') : 0 < c.toNat - '0'.toNat := by
  refine Nat.pos_of_ne_zero fun hzero => hc ?_
  have hdigits := (toDigits_of_isDigit h).2
  rw [hzero] at hdigits
  exact (List.singleton_inj.1 hdigits).symm

/-- A canonical numeral is the decimal numeral of its value. -/
theorem IsCanonical.toDigits_eq (h : IsCanonical w) :
    Nat.toDigits 10 (Nat.ofDigitChars 10 w 0) = w := by
  obtain ⟨c, w, rfl⟩ := List.exists_cons_of_ne_nil h.ne_nil
  obtain ⟨hc, hw⟩ := List.forall_mem_cons.1 h.isDigit
  by_cases hzero : c = '0'
  · rw [h.eq_zero (congrArg some hzero)]
    rfl
  · -- The first digit is the numeral of a number that the others are put behind.
    have hpos := toNat_pos_of_isDigit hc hzero
    rw [Nat.ofDigitChars_cons, Nat.mul_zero, Nat.zero_add, ← toDigits_append hpos hw,
      (toDigits_of_isDigit hc).2, List.singleton_append]

/-- The decimal numeral of a number is canonical, as it is what is left of itself without the zeros
    in front. -/
theorem isCanonical_toDigits (n : Nat) : IsCanonical (Nat.toDigits 10 n) := by
  have h : IsCanonical (withoutZeros (Nat.toDigits 10 n)) :=
    isCanonical_withoutZeros fun _ => Nat.isDigit_of_mem_toDigits (by decide) (by decide)
  have heq := h.toDigits_eq
  rw [ofDigitChars_withoutZeros, Nat.ofDigitChars_ten_toDigits] at heq
  rwa [← heq] at h

/-! ## Reading and writing -/

/-- A canonical numeral that is read as a number is written for it. -/
theorem IsCanonical.write_eq {n : Nat} (h : IsCanonical w) (hread : read w = .ok n) :
    write n = w := by
  rw [read_eq_ofDigitChars h.isDigit, Except.ok.injEq, Int.natCast_inj] at hread
  rw [Numeral.write_eq, ← hread, h.toDigits_eq]

theorem read_write (n : Nat) : read (write n) = .ok n := by
  rw [Numeral.write_eq, read_eq_ofDigitChars (isCanonical_toDigits n).isDigit,
    Nat.ofDigitChars_ten_toDigits]

theorem write_ofDigitChars (h : ∀ c ∈ w, c.isDigit) :
    write (Nat.ofDigitChars 10 w 0) = withoutZeros w := by
  rw [Numeral.write_eq, ← ofDigitChars_withoutZeros, (isCanonical_withoutZeros h).toDigits_eq]

/-- Decimal digits of any script, and of any length, are read as their positional value. A number
    that is not negative is written as the one canonical numeral that is read as it. ASCII digits
    that are read and written again lose the zeros in front. -/
theorem read_writeInt_canonical :
    (∀ w, Digital w → read w = .ok (Nat.ofDigits 10 (w.filterMap digit?).reverse : Nat)) ∧
    read [] = .ok 0 ∧
    (∀ n : Int, 0 ≤ n → ∃ w, writeInt n = .ok w ∧ IsCanonical w ∧ read w = .ok n ∧
      ∀ v, IsCanonical v → read v = .ok n → v = w) ∧
    ∀ w, (∀ c ∈ w, c.isDigit) → ∃ n, read w = .ok n ∧ writeInt n = .ok (withoutZeros w) := by
  refine ⟨fun w h => ?_, read_eq (w := []) nofun, fun n hn => ?_, fun w h => ?_⟩
  · rw [read_eq h, positional_eq_ofDigits h]
  · obtain ⟨n, rfl⟩ := Int.eq_ofNat_of_zero_le hn
    refine ⟨write n, rfl, ?_, read_write n, fun v hv hread => (hv.write_eq hread).symm⟩
    rw [Numeral.write_eq]
    exact isCanonical_toDigits n
  · exact ⟨_, read_eq_ofDigitChars h, congrArg Except.ok (write_ofDigitChars h)⟩

end Descent.Numeral
