import Descent.Proofs.Rest
import Mathlib.Data.List.Nodup

/-!
# Longest matches first

Matches are listed by preference, which says nothing about their lengths: an earlier alternative
may be shorter than a later one. In some listings the longest match comes first all the same, and
the others get shorter and shorter. What keeps this up when patterns are put together is that a
shorter match stops in the middle of something: before a character that would still have belonged
to it (`Listing.Shrinks`).

* If what comes after a match cannot go on before such a character, then the matches of a sequence
  shrink as those of its first item do (`Pattern.shrinks_listingAll_cons`).
* A repetition goes back one item after the other, so it stops before an item at last
  (`Pattern.shrinks_repeats`).
-/

namespace Descent

variable {t : Text}

namespace Listing

variable {α β : Type}

/-! ## Results in pairs -/

theorem pairwise_append {R : α → α → Prop} {l m : Listing α} (hl : l.results.Pairwise R)
    (hm : m.results.Pairwise R) (h : ∀ a ∈ l.results, ∀ b ∈ m.results, R a b) :
    (l ++ m).results.Pairwise R := by
  cases hhalt : l.halt? with
  | none =>
    rw [results_append hhalt, List.pairwise_append]
    exact ⟨hl, hm, h⟩
  | some cause => rwa [append_of_halt? hhalt]

theorem pairwise_bind {R : α → α → Prop} {S : β → β → Prop} {l : Listing α} {f : α → Listing β}
    (hl : l.results.Pairwise R) (hf : ∀ a ∈ l.results, (f a).results.Pairwise S)
    (h : ∀ a ∈ l.results, ∀ a' ∈ l.results, R a a' →
      ∀ b ∈ (f a).results, ∀ b' ∈ (f a').results, S b b') :
    (l.bind f).results.Pairwise S := by
  induction l using cases_events with
  | nil | halted => exact .nil
  | reach offset l ih => exact ih hl hf h
  | found a l ih =>
    obtain ⟨ha, hl⟩ := List.pairwise_cons.1 hl
    obtain ⟨hfa, hf⟩ := List.forall_mem_cons.1 hf
    refine pairwise_append hfa (ih hl hf fun b hb b' hb' =>
      h b (List.mem_cons_of_mem _ hb) b' (List.mem_cons_of_mem _ hb')) fun b hb b' hb' => ?_
    obtain ⟨a', ha', hb'⟩ := mem_results_bind (l := l) hb'
    exact h a List.mem_cons_self a' (List.mem_cons_of_mem _ ha') (ha a' ha') b hb b' hb'

/-! ## Shrinking matches -/

/-- Every match stops before those that are listed earlier, and where it stops comes a character
    of the class `k`, unless it is the first one. -/
def Shrinks (t : Text) (k : Char → Bool) (l : Listing Extent) : Prop :=
  l.results.Pairwise fun e e' => e'.stop < e.stop ∧ t[e'.stop]?.any k

variable {k k' : Char → Bool} {l m : Listing Extent}

theorem shrinks_nil : nil.Shrinks t k := .nil

theorem shrinks_halted (cause : Halt) : (halted cause).Shrinks t k := .nil

theorem shrinks_single (e : Extent) : (single e).Shrinks t k := List.pairwise_singleton _ e

theorem shrinks_terminal (stop : Nat) : (Pattern.terminal stop).Shrinks t k :=
  List.pairwise_singleton _ _

theorem any_mono {c : Option Char} (hk : ∀ c, k' c → k c) (h : c.any k') : c.any k := by
  obtain ⟨c, rfl, hc⟩ := (Option.any_eq_true _ _).1 h
  exact hk c hc

theorem not_any_false {c : Option Char} : ¬c.any fun _ => false := by
  rw [Option.any_false]
  exact Bool.false_ne_true

/-- No two matches stop at the same offset. -/
theorem Shrinks.eq_of_stop_eq (h : l.Shrinks t k) {e e' : Extent} (he : e ∈ l.results)
    (he' : e' ∈ l.results) (hstop : e.stop = e'.stop) : e = e' := by
  have hnodup : (l.results.map Extent.stop).Nodup :=
    List.pairwise_map.2 (h.imp fun hlt => (Nat.ne_of_lt hlt.1).symm)
  exact List.inj_on_of_nodup_map hnodup he he' hstop

/-- The first match is the longest one. -/
theorem Shrinks.le_of_head? (h : l.Shrinks t k) {e e' : Extent} (he : l.results.head? = some e)
    (he' : e' ∈ l.results) : e'.stop ≤ e.stop := by
  obtain ⟨later, hlater⟩ := List.head?_eq_some_iff.1 he
  rw [Shrinks, hlater, List.pairwise_cons] at h
  rw [hlater] at he'
  obtain rfl | he' := List.mem_cons.1 he'
  · exact Nat.le_refl _
  · exact (h.1 e' he').1.le

/-- It only matters where the matches stop. -/
theorem shrinks_map_iff {f : Extent → Extent} (hf : ∀ e, (f e).stop = e.stop) :
    (l.map f).Shrinks t k ↔ l.Shrinks t k := by
  rw [Shrinks, results_map, List.pairwise_map]
  simp only [hf]
  rfl

/-- A listing that goes on to its first match has no other. -/
theorem shrinks_first (default : Extent) (l : Listing Extent) : (l.first default).Shrinks t k := by
  induction l using cases_events with
  | nil => exact shrinks_single default
  | halted cause => exact shrinks_halted cause
  | reach offset l ih =>
    rw [first_cons_reach]
    exact ih
  | found e l =>
    rw [first_cons_found]
    exact shrinks_single e

/-- If one of two listings has no match, the other one may come before or after. -/
theorem Shrinks.append_of_disjoint (hl : l.Shrinks t k) (hm : m.Shrinks t k)
    (h : l.results = [] ∨ m.results = []) : (l ++ m).Shrinks t k := by
  refine pairwise_append hl hm fun e he e' he' => ?_
  obtain h | h := h
  · rw [h] at he
    cases he
  · rw [h] at he'
    cases he'

end Listing

namespace Pattern

variable {k k' : Char → Bool}

/-! ## Repetitions -/

/-- What is listed where further repetitions follow stops where they do. -/
theorem exists_of_mem_again {c : Prop} [Decidable c] {l : Listing Extent} {nodes : List Tree}
    {x : Extent} (hx : x ∈ (if c then l.map (.after nodes) else .nil : Listing Extent).results) :
    c ∧ ∃ y ∈ l.results, x.stop = y.stop := by
  split at hx
  · rename_i hc
    obtain ⟨y, hy, rfl⟩ := Listing.mem_results_map.1 hx
    exact ⟨hc, y, hy, rfl⟩
  · cases hx

/-- Where the item has no match, a repetition stops at once. -/
theorem stop_eq_of_mem_repeats {size : Nat} {item : Nat → Listing Extent} {minimum : Int}
    {maximum : Option Int} {count pos : Nat} (hitem : (item pos).results = []) {e : Extent}
    (he : e ∈ (repeats size item minimum maximum count pos).results) : e.stop = pos := by
  rw [repeats, Listing.mem_results_append] at he
  obtain he | ⟨-, he⟩ := he
  · split at he
    · cases he
    · obtain ⟨e', he', -⟩ := Listing.mem_results_bind he
      rw [hitem] at he'
      cases he'
  · split at he
    · rw [List.mem_singleton.1 he, Extent.empty_stop]
    · cases he

/-- A repetition shrinks if its item does, wherever a repetition may start (`Starts`): the item
    is not repeated where a shorter match of it stops, and starts with a character of the class
    `k`. -/
theorem shrinks_repeats {item : Nat → Listing Extent} (Starts : Nat → Prop) (k' : Char → Bool)
    (hstarts : ∀ pos, Starts pos → ∀ e ∈ (item pos).results, Starts e.stop)
    (hshrinks : ∀ pos, Starts pos → (item pos).Shrinks t k')
    (hshorter : ∀ pos, Starts pos → t[pos]?.any k' → (item pos).results = [])
    (hk : ∀ pos, Starts pos → ∀ e ∈ (item pos).results, t[pos]?.any k) (hk' : ∀ c, k' c → k c)
    (minimum : Int) (maximum : Option Int) (count : Nat) {pos : Nat} (hpos : Starts pos) :
    (repeats t.size item minimum maximum count pos).Shrinks t k := by
  -- Every repetition takes a character at least.
  induction hsize : t.size - pos using Nat.strongRecOn generalizing count pos with
  | ind size ih =>
    rw [repeats]
    refine Listing.pairwise_append ?_ ?_ fun x hx y hy => ?_
    · split
      · exact Listing.shrinks_nil
      refine Listing.pairwise_bind (hshrinks pos hpos) (fun e he => ?_)
        fun e he e' he' ⟨hlt, hany⟩ x hx y hy => ?_
      · split
        · exact (Listing.shrinks_map_iff (f := .after e.nodes) fun _ => rfl).2
            (ih _ (by omega) (count + 1) (hstarts pos hpos e he) rfl)
        · exact Listing.shrinks_nil
      · -- After a shorter match of the item there are no further repetitions.
        obtain ⟨-, x', hx', hx⟩ := exists_of_mem_again hx
        obtain ⟨-, y', hy', hy⟩ := exists_of_mem_again hy
        have hle := (within_repeats _ _ _ _ _ _ x' hx').1
        have hstop := stop_eq_of_mem_repeats (hshorter _ (hstarts pos hpos e' he') hany) hy'
        rw [hx, hy, hstop]
        exact ⟨hlt.trans_le hle, Listing.any_mono hk' hany⟩
    · split
      · exact Listing.shrinks_single _
      · exact Listing.shrinks_nil
    · -- The offset itself comes last, where the item starts.
      split at hx
      · cases hx
      obtain ⟨e, he, hx⟩ := Listing.mem_results_bind hx
      obtain ⟨⟨hlt, -⟩, x', hx', hx⟩ := exists_of_mem_again hx
      have hle := (within_repeats _ _ _ _ _ _ x' hx').1
      split at hy
      · rw [List.mem_singleton.1 hy, hx]
        exact ⟨hlt.trans_le hle, hk pos hpos e he⟩
      · cases hy

section

variable {enter : Word → Nat → Listing Extent}

/-- A repeated class shrinks character by character. -/
theorem shrinks_charClass (c : CharClass) (minimum : Int) (maximum : Option Int) (pos : Nat) :
    ((repetition (.charClass c) minimum maximum).listing t enter pos).Shrinks t c.accepts := by
  refine shrinks_repeats (fun _ => True) (fun _ => false) (fun _ _ _ _ => trivial)
    (fun pos _ => ?_) (fun _ _ h => absurd h Listing.not_any_false) (fun pos _ e he => ?_)
    (fun _ h => nomatch h) minimum maximum 0 trivial
  · rw [listing]
    split
    · exact Listing.shrinks_terminal _
    · exact Listing.shrinks_nil
  · rw [listing] at he
    split at he
    · assumption
    · cases he

/-! ## Sequences and choices -/

section

variable (henter : ∀ name, Within t.size (enter name)) {item : Pattern} {items : List Pattern}
  {pos : Nat}

include henter

/-- A sequence shrinks if its first item does: where a shorter match of that one stops, the other
    items match nothing at most. -/
theorem shrinks_listingAll_cons (hitem : (item.listing t enter pos).Shrinks t k')
    (hitems : ∀ e ∈ (item.listing t enter pos).results,
      (listingAll t enter items e.stop).Shrinks t k)
    (hshorter : ∀ mid, t[mid]?.any k' →
      ∀ e ∈ (listingAll t enter items mid).results, e.stop = mid ∧ t[mid]?.any k) :
    (listingAll t enter (item :: items) pos).Shrinks t k := by
  refine Listing.pairwise_bind hitem (fun e he => ?_)
    fun e _ e' _ ⟨hlt, hany⟩ x hx y hy => ?_
  · exact (Listing.shrinks_map_iff (f := .after e.nodes) fun _ => rfl).2 (hitems e he)
  · obtain ⟨x', hx', rfl⟩ := Listing.mem_results_map.1 hx
    obtain ⟨y', hy', rfl⟩ := Listing.mem_results_map.1 hy
    obtain ⟨hstop, hk⟩ := hshorter _ hany y' hy'
    have hle := (within_listingAll henter items e.stop x' hx').1
    rw [Extent.after_stop, Extent.after_stop, hstop]
    exact ⟨hlt.trans_le hle, hk⟩

/-- A sequence shrinks as the items after the first one do, if that one has a single match. -/
theorem shrinks_listingAll_cons_of_single (hitem : ∀ k, (item.listing t enter pos).Shrinks t k)
    (hitems : ∀ e ∈ (item.listing t enter pos).results,
      (listingAll t enter items e.stop).Shrinks t k) :
    (listingAll t enter (item :: items) pos).Shrinks t k :=
  shrinks_listingAll_cons henter (hitem fun _ => false) hitems
    fun _ h => absurd h Listing.not_any_false

theorem shrinks_listingAll_singleton (hitem : (item.listing t enter pos).Shrinks t k) :
    (listingAll t enter [item] pos).Shrinks t k := by
  refine shrinks_listingAll_cons henter hitem (fun _ _ => Listing.shrinks_single _)
    fun mid hany e he => ?_
  rw [List.mem_singleton.1 he]
  exact ⟨rfl, hany⟩

end

end

end Pattern

end Descent
