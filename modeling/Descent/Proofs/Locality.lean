import Descent.Proofs.Derivation

/-!
# What a search looks at

A search that has not got beyond some offset has not looked far beyond it: a terminal is
compared with the text where it is tried, so it looks ahead by its own length at most. Two
texts that agree for that much longer (`Text.Agree`) are searched alike, as long as nothing
beyond the offset is reached (`Alike`, `Rules.alike_listing`); what comes after that may be
anything.

In particular, two searches that are alike reach the same offsets and stop at the same ones,
if the first one reaches nothing beyond (`Alike.settled`). So a text that is refused is refused
for what stands up to the furthest offset that is reached, and as far as the rules look ahead
from there (`Grammar.parse_of_agree`), which is one character or the longest literal
(`Grammar.parse_of_take_eq`).
-/

namespace Descent

/-! ## Listings that are alike -/

/-- Two listings go on in the same way until both reach an offset beyond `p`, whatever the
    nodes of their results. -/
inductive Alike (p : Nat) : (l l' : Listing Extent) → Prop
  | nil : Alike p .nil .nil
  | halted (cause : Halt) : Alike p (.halted cause) (.halted cause)
  | found {e e' : Extent} {l l' : Listing Extent} (hstop : e'.stop = e.stop) (hle : e.stop ≤ p)
    (h : Alike p l l') : Alike p (.cons (.found e) l) (.cons (.found e') l')
  | reach {offset : Nat} {l l' : Listing Extent} (hle : offset ≤ p) (h : Alike p l l') :
    Alike p (.cons (.reach offset) l) (.cons (.reach offset) l')
  | beyond {offset offset' : Nat} (h : p < offset) (h' : p < offset') (l l' : Listing Extent) :
    Alike p (.cons (.reach offset) l) (.cons (.reach offset') l')

namespace Alike

variable {p : Nat} {l l' m m' : Listing Extent}

theorem single {e e' : Extent} (hstop : e'.stop = e.stop) (hle : e.stop ≤ p) :
    Alike p (.single e) (.single e') :=
  .found hstop hle .nil

theorem append (hl : Alike p l l') (hm : Alike p m m') : Alike p (l ++ m) (l' ++ m') := by
  induction hl with
  | nil => exact hm
  | halted cause => exact .halted cause
  | found hstop hle _ ih =>
    simp only [Listing.cons_append]
    exact .found hstop hle ih
  | reach hle _ ih =>
    simp only [Listing.cons_append]
    exact .reach hle ih
  | beyond h h' =>
    simp only [Listing.cons_append]
    exact .beyond h h' _ _

theorem bind {f f' : Extent → Listing Extent} (h : Alike p l l')
    (hf : ∀ e e' : Extent, e'.stop = e.stop → e.stop ≤ p → Alike p (f e) (f' e')) :
    Alike p (l.bind f) (l'.bind f') := by
  induction h with
  | nil => exact .nil
  | halted cause => exact .halted cause
  | found hstop hle _ ih => exact (hf _ _ hstop hle).append ih
  | reach hle _ ih => exact .reach hle ih
  | beyond h h' => exact .beyond h h' _ _

/-- Only the nodes are changed. -/
theorem map (h : Alike p l l') (f f' : Extent → Extent) (hf : ∀ e, (f e).stop = e.stop)
    (hf' : ∀ e, (f' e).stop = e.stop) : Alike p (l.map f) (l'.map f') :=
  h.bind fun e e' hstop hle => .single (by rw [hf, hf', hstop]) (by rwa [hf])

theorem first {default default' : Extent} (h : Alike p l l')
    (hstop : default'.stop = default.stop) (hle : default.stop ≤ p) :
    Alike p (l.first default) (l'.first default') := by
  induction h with
  | nil => exact .single hstop hle
  | halted cause => exact .halted cause
  | found hstop hle =>
    simp only [Listing.first_cons_found]
    exact .single hstop hle
  | reach hle _ ih =>
    simp only [Listing.first_cons_reach]
    exact .reach hle ih
  | beyond h h' =>
    simp only [Listing.first_cons_reach]
    exact .beyond h h' _ _

/-- If nothing beyond `p` is reached, the listings end in the same way, reach the same offsets
    and stop at the same ones, and none of these lies beyond `p`. -/
theorem settled (h : Alike p l l') (hp : Event.furthest l.events ≤ p) :
    l'.halt? = l.halt? ∧ l'.reached = l.reached ∧
      l'.results.map Extent.stop = l.results.map Extent.stop ∧ ∀ e ∈ l.results, e.stop ≤ p := by
  induction h with
  | nil | halted => exact ⟨rfl, rfl, rfl, nofun⟩
  | found hstop hle _ ih =>
    obtain ⟨hhalt, hreached, hresults, hall⟩ := ih hp
    refine ⟨hhalt, hreached, ?_, List.forall_mem_cons.2 ⟨hle, hall⟩⟩
    rw [Listing.results_cons_found, Listing.results_cons_found, List.map_cons, List.map_cons,
      hstop, hresults]
  | reach hle _ ih =>
    obtain ⟨hhalt, hreached, hresults, hall⟩ := ih (Nat.le_trans (Nat.le_max_right _ _) hp)
    exact ⟨hhalt, congrArg (List.cons _) hreached, hresults, hall⟩
  | beyond h => exact absurd (Nat.le_trans (Nat.le_max_left _ _) hp) (Nat.not_le.2 h)

end Alike

/-! ## Texts that agree -/

/-- The texts have the same first `n` characters, or are the same. -/
def Text.Agree (n : Nat) (t t' : Text) : Prop := ∀ i < n, t'[i]? = t[i]?

namespace Text.Agree

variable {n : Nat} {t t' : Text}

/-- An offset up to which the texts agree is inside of both or of none. -/
theorem le_size_iff (h : Agree n t t') {pos : Nat} (hpos : pos ≤ n) :
    pos ≤ t'.size ↔ pos ≤ t.size := by
  cases pos with
  | zero => simp
  | succ pos =>
    have hsize (t : Text) : pos + 1 ≤ t.size ↔ t[pos]?.isSome := by
      rw [isSome_getElem?]
      rfl
    rw [hsize, hsize, h pos hpos]

/-- Texts that agree beyond the end of one of them have the same size. -/
theorem size_eq (h : Agree n t t') (hn : t'.size < n) : t'.size = t.size := by
  have hend : t'[t'.size]? = none := Array.getElem?_eq_none (Nat.le_refl _)
  exact Nat.le_antisymm ((h.le_size_iff (Nat.le_of_lt hn)).1 (Nat.le_refl _))
    (Array.getElem?_eq_none_iff.1 ((h _ hn).symm.trans hend))

theorem holds_eq (h : Agree n t t') {word : Word} {pos : Nat} (hpos : pos + word.length ≤ n) :
    t'.holds word pos = t.holds word pos := by
  induction word generalizing pos with
  | nil =>
    rw [holds, holds, decide_eq_decide]
    exact h.le_size_iff hpos
  | cons c word ih =>
    rw [List.length_cons] at hpos
    rw [holds, holds, h pos (by omega), ih (by omega)]

end Text.Agree

theorem Text.agree_of_take_eq {n : Nat} {t t' : Text} (h : t'.toList.take n = t.toList.take n) :
    Agree n t t' := by
  intro i hi
  rw [← Array.getElem?_toList, ← Array.getElem?_toList, ← List.getElem?_take_of_lt hi, h,
    List.getElem?_take_of_lt hi]

/-! ## Searching texts that agree -/

namespace Pattern

mutual

/-- The length of the longest literal in the pattern. -/
def longest : Pattern → Nat
  | .literal word => word.length
  | .sequence items => longestOfAll items
  | .choice alternatives => longestOfAll alternatives
  | .repetition item _ _ => item.longest
  | .charClass _ | .reference _ | .skip _ => 0

/-- The length of the longest literal in the patterns of a list. -/
def longestOfAll : List Pattern → Nat
  | [] => 0
  | p :: ps => max p.longest (longestOfAll ps)

end

variable {t t' : Text} {p ahead n : Nat}

theorem alike_terminal (stop : Nat) : Alike p (terminal stop) (terminal stop) := by
  rcases Nat.lt_or_ge p stop with h | h
  · exact .beyond h h _ _
  · exact .reach h (.single rfl h)

theorem alike_repeats {size size' : Nat} {item item' : Nat → Listing Extent}
    (hwithin : Within size item) (hwithin' : Within size' item')
    (hitem : ∀ pos ≤ p, Alike p (item pos) (item' pos)) (minimum : Int) (maximum : Option Int)
    (count : Nat) {pos : Nat} (hpos : pos ≤ p) :
    Alike p (repeats size item minimum maximum count pos)
      (repeats size' item' minimum maximum count pos) := by
  -- By induction on the number of characters up to `p`, as no repetition is empty.
  induction hn : p - pos using Nat.strongRecOn generalizing count pos with
  | ind n ih =>
    rw [repeats_eq hwithin, repeats_eq hwithin']
    refine .append ?_ ?_
    · split
      · exact .nil
      · refine (hitem pos hpos).bind fun e e' hstop hle => ?_
        rw [hstop]
        split
        · exact (ih (p - e.stop) (by omega) (count + 1) hle rfl).map _ _ (fun _ => rfl) fun _ => rfl
        · exact .nil
    · split
      · exact .single rfl hpos
      · exact .nil

section

variable {enter enter' : Word → Nat → Listing Extent}

mutual

/-- A pattern is searched alike in texts that agree for as long as its literals, if rules
    are. -/
theorem alike_listing (hagree : Text.Agree n t t') (hn : p + ahead ≤ n) (hahead : 0 < ahead)
    (hwithin : ∀ name, Within t.size (enter name)) (hwithin' : ∀ name, Within t'.size (enter' name))
    (henter : ∀ name, ∀ pos ≤ p, Alike p (enter name pos) (enter' name pos)) :
    ∀ (q : Pattern), q.longest ≤ ahead → ∀ pos ≤ p,
      Alike p (q.listing t enter pos) (q.listing t' enter' pos)
  | .literal word, hq, pos, hpos => by
    have hword : pos + word.length ≤ n := by
      rw [longest] at hq
      omega
    rw [listing, listing, hagree.holds_eq hword]
    split
    · exact alike_terminal _
    · exact .nil
  | .charClass k, _, pos, hpos => by
    rw [listing, listing, hagree pos (by omega)]
    split
    · exact alike_terminal _
    · exact .nil
  | .sequence items, hq, pos, hpos =>
    alike_listingAll hagree hn hahead hwithin hwithin' henter items hq pos hpos
  | .choice alternatives, hq, pos, hpos =>
    alike_listingAny hagree hn hahead hwithin hwithin' henter alternatives hq pos hpos
  | .repetition item minimum maximum, hq, pos, hpos =>
    alike_repeats (within_listing hwithin item) (within_listing hwithin' item)
      (alike_listing hagree hn hahead hwithin hwithin' henter item hq) minimum maximum 0 hpos
  | .reference name, _, pos, hpos => (henter name pos hpos).map _ _ (fun _ => rfl) fun _ => rfl
  | .skip name, _, pos, hpos => by
    rw [listing, listing]
    exact .first (.map (henter name pos hpos) _ _ (fun _ => rfl) fun _ => rfl) rfl hpos

theorem alike_listingAll (hagree : Text.Agree n t t') (hn : p + ahead ≤ n) (hahead : 0 < ahead)
    (hwithin : ∀ name, Within t.size (enter name)) (hwithin' : ∀ name, Within t'.size (enter' name))
    (henter : ∀ name, ∀ pos ≤ p, Alike p (enter name pos) (enter' name pos)) :
    ∀ (items : List Pattern), longestOfAll items ≤ ahead → ∀ pos ≤ p,
      Alike p (listingAll t enter items pos) (listingAll t' enter' items pos)
  | [], _, _, hpos => .single rfl hpos
  | item :: items, hq, pos, hpos => by
    rw [longestOfAll, Nat.max_le] at hq
    refine (alike_listing hagree hn hahead hwithin hwithin' henter item hq.1 pos hpos).bind
      fun e e' hstop hle => ?_
    rw [hstop]
    exact (alike_listingAll hagree hn hahead hwithin hwithin' henter items hq.2 e.stop hle).map
      _ _ (fun _ => rfl) fun _ => rfl

theorem alike_listingAny (hagree : Text.Agree n t t') (hn : p + ahead ≤ n) (hahead : 0 < ahead)
    (hwithin : ∀ name, Within t.size (enter name)) (hwithin' : ∀ name, Within t'.size (enter' name))
    (henter : ∀ name, ∀ pos ≤ p, Alike p (enter name pos) (enter' name pos)) :
    ∀ (alternatives : List Pattern), longestOfAll alternatives ≤ ahead → ∀ pos ≤ p,
      Alike p (listingAny t enter alternatives pos) (listingAny t' enter' alternatives pos)
  | [], _, _, _ => .nil
  | q :: qs, hq, pos, hpos => by
    rw [longestOfAll, Nat.max_le] at hq
    exact (alike_listing hagree hn hahead hwithin hwithin' henter q hq.1 pos hpos).append
      (alike_listingAny hagree hn hahead hwithin hwithin' henter qs hq.2 pos hpos)

end

end

end Pattern

namespace Rules

/-- The literals in the rules have no more than `ahead` characters. -/
def LooksAhead (rules : Rules) (ahead : Nat) : Prop := ∀ rule ∈ rules, rule.2.longest ≤ ahead

instance (rules : Rules) (ahead : Nat) : Decidable (rules.LooksAhead ahead) :=
  inferInstanceAs (Decidable (∀ rule ∈ rules, rule.2.longest ≤ ahead))

/-- A rule is searched alike in texts that agree for as long as the literals in the rules. -/
theorem alike_listing {rules : Rules} {t t' : Text} {p ahead n : Nat}
    (hrules : rules.LooksAhead ahead) (hagree : Text.Agree n t t') (hn : p + ahead ≤ n)
    (hahead : 0 < ahead) (limit : Nat) (name : Word) {pos : Nat} (hpos : pos ≤ p) :
    Alike p (rules.listing t limit name pos) (rules.listing t' limit name pos) := by
  induction limit generalizing name pos with
  | zero =>
    rw [listing, listing]
    split <;> exact .halted _
  | succ limit ih =>
    rw [listing, listing]
    split
    · exact .halted _
    · rename_i q hq
      exact q.alike_listing hagree hn hahead (rules.within_listing t limit)
        (rules.within_listing t' limit) (fun name _ hpos => ih name hpos)
        (hrules _ (mem_of_lookup hq)) pos hpos

/-- The length of the longest literal in the rules. -/
def longest (rules : Rules) : Nat := Pattern.longestOfAll (rules.map (·.2))

end Rules

theorem Pattern.longest_le_longestOfAll {p : Pattern} {ps : List Pattern} (hp : p ∈ ps) :
    p.longest ≤ longestOfAll ps := by
  induction hp with
  | head ps => exact Nat.le_max_left _ _
  | tail q _ ih => exact Nat.le_trans ih (Nat.le_max_right _ _)

theorem Rules.looksAhead_max_longest (rules : Rules) :
    rules.LooksAhead (max 1 rules.longest) := fun _ hrule =>
  Nat.le_trans (Pattern.longest_le_longestOfAll (List.mem_map_of_mem hrule)) (Nat.le_max_right _ _)

namespace Grammar

variable {g : Grammar} {limit furthest : Nat} {t t' : Text}

/-- A text is refused as another one that agrees with it up to the offset of the refusal, and as
    far as the rules look ahead from there. -/
theorem parse_of_agree {ahead : Nat} (hrules : g.rules.LooksAhead ahead) (hahead : 0 < ahead)
    (h : g.parse limit t = .error (.unmatched furthest))
    (hagree : Text.Agree (furthest + ahead) t t') :
    g.parse limit t' = .error (.unmatched furthest) := by
  obtain ⟨hstops, hhalt, rfl⟩ := parse_eq_unmatched_iff.1 h
  have halike := Rules.alike_listing hrules hagree (Nat.le_refl _) hahead limit g.root
    (Nat.zero_le _)
  obtain ⟨hhalt', hreached, hstops', hle⟩ := halike.settled (Nat.le_refl _)
  refine parse_eq_unmatched_iff.2
    ⟨fun e' he' hend => ?_, hhalt'.trans hhalt, congrArg (List.foldr max 0) hreached.symm⟩
  obtain ⟨e, he, hstop⟩ := List.mem_map.1 (hstops' ▸ List.mem_map_of_mem he')
  -- A text that ends so early is the other one.
  have hsize : t'.size < Event.furthest (g.rules.listing t limit g.root 0).events + ahead := by
    have := hle e he
    have := hstop.trans hend
    omega
  exact hstops e he (hstop.trans (hend.trans (hagree.size_eq hsize)))

/-- A refusal is decided by what stands up to its offset, and one character or the longest literal
    beyond it: every text that has the same there is refused at the same offset. -/
theorem parse_of_take_eq (h : g.parse limit t = .error (.unmatched furthest))
    (htake : t'.toList.take (furthest + max 1 g.rules.longest) =
      t.toList.take (furthest + max 1 g.rules.longest)) :
    g.parse limit t' = .error (.unmatched furthest) :=
  parse_of_agree g.rules.looksAhead_max_longest (by omega) h (Text.agree_of_take_eq htake)

/-- The grammar `a ::= 'ab' 'cde' | 'ab' [0-9];`, which looks three characters ahead. -/
def lookingAhead : Grammar :=
  ⟨[(['a'], .choice [.sequence [.literal ['a', 'b'], .literal ['c', 'd', 'e']],
    .sequence [.literal ['a', 'b'], .charClass ⟨[('0', '9')], false⟩]])], ['a']⟩

/-- What comes after the five characters that are looked at does not matter. -/
theorem parse_lookingAhead :
    lookingAhead.parse 9 #['a', 'b', 'c', 'd', 'x', 'y'] = .error (.unmatched 2) ∧
      lookingAhead.parse 9 #['a', 'b', 'c', 'd', 'x'] = .error (.unmatched 2) :=
  ⟨rfl, parse_of_take_eq (t := #['a', 'b', 'c', 'd', 'x', 'y']) rfl rfl⟩

end Grammar

end Descent
