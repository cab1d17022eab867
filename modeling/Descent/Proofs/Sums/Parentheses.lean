import Descent.Text
import Mathlib.Data.List.Basic

/-!
# Open parentheses

The *surplus* of a word tells how many more parentheses it opens than it closes
(`Sums.surplus`). How deeply a word nests is the largest surplus of its beginnings: it nests no
deeper than `d` if none of them has a surplus above `d` (`Sums.Shallow`).
-/

namespace Descent.Sums

/-- The number of parentheses that the word opens, less the number of those that it closes. -/
def surplus (w : Word) : Int := w.count '(' - w.count ')'

/-- No beginning of the word has a surplus above `d`. -/
def Shallow (d : Int) (w : Word) : Prop := ∀ v, v <+: w → surplus v ≤ d

variable {d : Int} {v w : Word}

@[simp] theorem surplus_nil : surplus [] = 0 := rfl

theorem surplus_append (v w : Word) : surplus (v ++ w) = surplus v + surplus w := by
  rw [surplus, surplus, surplus, List.count_append, List.count_append]
  omega

theorem surplus_cons (c : Char) (w : Word) : surplus (c :: w) = surplus [c] + surplus w :=
  surplus_append [c] w

/-- Other characters do not count. -/
theorem surplus_eq_zero (h : ∀ c ∈ w, c ≠ '(' ∧ c ≠ ')') : surplus w = 0 := by
  rw [surplus, List.count_eq_zero_of_not_mem fun hc => (h _ hc).1 rfl,
    List.count_eq_zero_of_not_mem fun hc => (h _ hc).2 rfl]
  rfl

theorem shallow_nil_iff : Shallow d [] ↔ 0 ≤ d := by
  refine ⟨fun h => h [] List.prefix_rfl, fun h v hv => ?_⟩
  rwa [List.prefix_nil.1 hv, surplus_nil]

theorem shallow_cons_iff {c : Char} :
    Shallow d (c :: w) ↔ 0 ≤ d ∧ Shallow (d - surplus [c]) w := by
  refine ⟨fun h => ⟨h [] List.nil_prefix, fun v hv => ?_⟩, fun ⟨hd, h⟩ v hv => ?_⟩
  · have := h (c :: v) (List.cons_prefix_cons.2 ⟨rfl, hv⟩)
    rw [surplus_cons] at this
    omega
  · obtain rfl | ⟨u, rfl, hu⟩ := List.prefix_cons_iff.1 hv
    · exact hd
    · have := h u hu
      rw [surplus_cons]
      omega

theorem Shallow.mono (h : Shallow d w) {d' : Int} (hd : d ≤ d') : Shallow d' w :=
  fun v hv => Int.le_trans (h v hv) hd

theorem Shallow.append (hv : Shallow d v) (hw : Shallow (d - surplus v) w) :
    Shallow d (v ++ w) := by
  induction v generalizing d with
  | nil => rwa [surplus_nil, Int.sub_zero] at hw
  | cons c v ih =>
    obtain ⟨hd, hv⟩ := shallow_cons_iff.1 hv
    refine shallow_cons_iff.2 ⟨hd, ih hv ?_⟩
    rwa [surplus_cons, ← Int.sub_sub] at hw

/-- The word closes all parentheses that it opens, and nests no deeper than `d`. -/
structure Balanced (d : Int) (w : Word) : Prop where
  shallow : Shallow d w
  surplus_eq : surplus w = 0

namespace Balanced

/-- A word without parentheses does not nest. -/
theorem of_forall (h : ∀ c ∈ w, c ≠ '(' ∧ c ≠ ')') (hd : 0 ≤ d) : Balanced d w := by
  refine ⟨fun v hv => ?_, surplus_eq_zero h⟩
  rwa [surplus_eq_zero fun c hc => h c (hv.mem hc)]

theorem mono (h : Balanced d w) {d' : Int} (hd : d ≤ d') : Balanced d' w :=
  ⟨h.shallow.mono hd, h.surplus_eq⟩

theorem append (hv : Balanced d v) (hw : Balanced d w) : Balanced d (v ++ w) := by
  refine ⟨hv.shallow.append ?_, ?_⟩
  · rw [hv.surplus_eq, Int.sub_zero]
    exact hw.shallow
  · rw [surplus_append, hv.surplus_eq, hw.surplus_eq]
    rfl

/-- A pair of parentheses around the word makes it nest once more. -/
theorem parens (h : Balanced d w) : Balanced (d + 1) ('(' :: (w ++ [')'])) := by
  have hd : 0 ≤ d := h.shallow [] List.nil_prefix
  have hclosing : Shallow d [')'] :=
    shallow_cons_iff.2 ⟨hd, shallow_nil_iff.2 (Int.sub_nonneg.2 (Int.le_trans (by decide) hd))⟩
  refine ⟨shallow_cons_iff.2 ⟨by omega, ?_⟩, ?_⟩
  · rw [show surplus ['('] = 1 from rfl, Int.add_sub_cancel]
    refine h.shallow.append ?_
    rwa [h.surplus_eq, Int.sub_zero]
  · rw [surplus_cons, surplus_append, h.surplus_eq]
    rfl

end Balanced

end Descent.Sums
