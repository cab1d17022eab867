import Descent.Proofs.Enumeration

/-!
# Other names

The names in a pattern are nothing but labels: a search only looks them up, and writes them into the
nodes of a tree. If they are changed (`Pattern.rename`), and every rule named in the pattern lists
under its new name what it did under the old one, but for the names in the nodes (`Tree.rename`),
then so does the pattern (`Pattern.listing_rename`).

To change names and to weave skips into a pattern can be done in any order
(`Pattern.skipping_rename`).
-/

namespace Descent

/-! ## Changing names -/

namespace Pattern

mutual

/-- The pattern with every name changed. -/
def rename (f : Word → Word) : Pattern → Pattern
  | .literal word => .literal word
  | .charClass k => .charClass k
  | .sequence items => .sequence (renameAll f items)
  | .choice alternatives => .choice (renameAll f alternatives)
  | .repetition item minimum maximum => .repetition (item.rename f) minimum maximum
  | .reference name => .reference (f name)
  | .skip name => .skip (f name)

/-- The patterns of a list with every name changed. -/
def renameAll (f : Word → Word) : List Pattern → List Pattern
  | [] => []
  | p :: ps => p.rename f :: renameAll f ps

end

end Pattern

namespace Tree

mutual

/-- The tree with the name of every node changed. -/
def rename (f : Word → Word) : Tree → Tree
  | ⟨name, source, start, stop, children⟩ => ⟨f name, source, start, stop, renameAll f children⟩

/-- The trees of a list with the name of every node changed. -/
def renameAll (f : Word → Word) : List Tree → List Tree
  | [] => []
  | tree :: trees => tree.rename f :: renameAll f trees

end

theorem renameAll_append (f : Word → Word) (trees later : List Tree) :
    renameAll f (trees ++ later) = renameAll f trees ++ renameAll f later := by
  induction trees with
  | nil => rfl
  | cons tree trees ih => rw [List.cons_append, renameAll, ih, renameAll, List.cons_append]

end Tree

namespace Extent

variable (f : Word → Word)

/-- The extent with the names of its nodes changed. -/
def rename (e : Extent) : Extent := ⟨e.stop, Tree.renameAll f e.nodes⟩

@[simp] theorem rename_stop (e : Extent) : (e.rename f).stop = e.stop := rfl

@[simp] theorem rename_empty (pos : Nat) : (empty pos).rename f = empty pos := rfl

theorem rename_after (nodes : List Tree) (e : Extent) :
    (e.after nodes).rename f = (e.rename f).after (Tree.renameAll f nodes) := by
  rw [after, rename, Tree.renameAll_append]
  rfl

/-- The node of the extent has the new name of its rule. -/
theorem rename_toTree (t : Text) (name : Word) (pos : Nat) (e : Extent) :
    (e.toTree t name pos).rename f = (e.rename f).toTree t (f name) pos := by
  rw [toTree, Tree.rename]
  rfl

theorem rename_reference (t : Text) (name : Word) (pos : Nat) (e : Extent) :
    rename f ⟨e.stop, [e.toTree t name pos]⟩ = ⟨e.stop, [(e.rename f).toTree t (f name) pos]⟩ := by
  rw [rename, Tree.renameAll, rename_toTree, Tree.renameAll]

end Extent

theorem Listing.map_rename_after (f : Word → Word) (nodes : List Tree) (l : Listing Extent) :
    (l.map (Extent.after nodes)).map (Extent.rename f) =
      (l.map (Extent.rename f)).map (Extent.after (Tree.renameAll f nodes)) := by
  simp only [Listing.map_map, Extent.rename_after]

/-! ## Weaving skips into renamed patterns -/

namespace Pattern

variable (f : Word → Word)

theorem renameAll_append (ps qs : List Pattern) :
    renameAll f (ps ++ qs) = renameAll f ps ++ renameAll f qs := by
  induction ps with
  | nil => rfl
  | cons p ps ih => rw [List.cons_append, renameAll, ih, renameAll, List.cons_append]

theorem items_rename (p : Pattern) : (p.rename f).items = renameAll f p.items := by
  cases p <;> rfl

theorem concat_rename (ps : List Pattern) :
    concat (renameAll f ps) = (concat ps).rename f := by
  rw [concat, concat, rename]
  congr 1
  induction ps with
  | nil => rfl
  | cons p ps ih =>
    rw [renameAll, List.flatMap_cons, List.flatMap_cons, ih, items_rename, renameAll_append]

variable (skip : Word)

mutual

/-- The skips that are woven in have the new name of the rule that is skipped. -/
theorem skipping_rename : ∀ p : Pattern,
    (p.rename f).skipping (f skip) = (p.skipping skip).rename f
  | .literal _ | .charClass _ | .reference _ | .skip _ => rfl
  | .sequence items => by
    rw [rename, skipping, skippingAll_rename items, skipping, concat_rename]
  | .choice alternatives => by
    rw [rename, skipping, skippingAll_rename alternatives, skipping, rename]
  | .repetition item minimum maximum => by
    rw [rename, skipping, skipping_rename item, skipping, rename]

theorem skippingAll_rename : ∀ ps : List Pattern,
    skippingAll (f skip) (renameAll f ps) = renameAll f (skippingAll skip ps)
  | [] => rfl
  | p :: ps => by
    rw [renameAll, skippingAll, skipping_rename p, skippingAll_rename ps, skippingAll, renameAll]

end

end Pattern

/-! ## Searching for renamed patterns -/

namespace Pattern

variable {f : Word → Word}

theorem repeats_rename {size : Nat} {item item' : Nat → Listing Extent}
    (hitem : ∀ pos, item' pos = (item pos).map (.rename f)) (minimum : Int) (maximum : Option Int)
    (count pos : Nat) : repeats size item' minimum maximum count pos =
      (repeats size item minimum maximum count pos).map (.rename f) := by
  -- Every repetition takes a character at least.
  induction h : size - pos using Nat.strongRecOn generalizing count pos with
  | ind left ih =>
    rw [repeats, repeats, Listing.map_append]
    refine congrArg₂ (· ++ ·) ?_ ?_
    · split
      · rfl
      · rw [hitem, Listing.bind_map, Listing.map_bind]
        refine Listing.bind_congr fun e _ => ?_
        rw [Extent.rename_stop]
        by_cases hstop : pos < e.stop ∧ e.stop ≤ size
        · rw [if_pos hstop, if_pos hstop, ih (size - e.stop) (by omega) (count + 1) e.stop rfl,
            Listing.map_rename_after]
          rfl
        · rw [if_neg hstop, if_neg hstop]
          rfl
    · split <;> rfl

section

variable {t : Text} {enter enter' : Word → Nat → Listing Extent}

mutual

/-- A pattern with other names lists what the pattern does, if the rules named in it list the same
    under their new names. -/
theorem listing_rename : ∀ (p : Pattern)
    (_ : ∀ name ∈ p.names, ∀ pos, enter' (f name) pos = (enter name pos).map (.rename f))
    (pos : Nat), (p.rename f).listing t enter' pos = (p.listing t enter pos).map (.rename f)
  | .literal word, _, pos => by
    rw [rename, listing, listing]
    split <;> rfl
  | .charClass k, _, pos => by
    rw [rename, listing, listing]
    split <;> rfl
  | .sequence items, henter, pos => listingAll_rename items henter pos
  | .choice alternatives, henter, pos => listingAny_rename alternatives henter pos
  | .repetition item minimum maximum, henter, pos =>
    repeats_rename (listing_rename item henter) minimum maximum 0 pos
  | .reference name, henter, pos => by
    rw [rename, listing, listing, henter name (List.mem_singleton_self _), Listing.map_map,
      Listing.map_map]
    simp only [Extent.rename_reference, Extent.rename_stop]
  | .skip name, henter, pos => by
    rw [rename, listing, listing, henter name (List.mem_singleton_self _), ← Listing.first_map,
      Listing.map_map, Listing.map_map]
    rfl

theorem listingAll_rename : ∀ (items : List Pattern)
    (_ : ∀ name ∈ namesOfAll items, ∀ pos, enter' (f name) pos = (enter name pos).map (.rename f))
    (pos : Nat),
    listingAll t enter' (renameAll f items) pos = (listingAll t enter items pos).map (.rename f)
  | [], _, pos => rfl
  | item :: items, henter, pos => by
    rw [renameAll, listingAll, listingAll,
      listing_rename item fun name hname => henter name (List.mem_append_left _ hname),
      Listing.bind_map, Listing.map_bind]
    refine Listing.bind_congr fun e _ => ?_
    rw [Listing.map_rename_after,
      ← listingAll_rename items fun name hname => henter name (List.mem_append_right _ hname)]
    rfl

theorem listingAny_rename : ∀ (alternatives : List Pattern)
    (_ : ∀ name ∈ namesOfAll alternatives, ∀ pos,
      enter' (f name) pos = (enter name pos).map (.rename f)) (pos : Nat),
    listingAny t enter' (renameAll f alternatives) pos =
      (listingAny t enter alternatives pos).map (.rename f)
  | [], _, pos => rfl
  | p :: ps, henter, pos => by
    rw [renameAll, listingAny, listingAny, Listing.map_append,
      listing_rename p fun name hname => henter name (List.mem_append_left _ hname),
      listingAny_rename ps fun name hname => henter name (List.mem_append_right _ hname)]

end

end

end Pattern

end Descent
