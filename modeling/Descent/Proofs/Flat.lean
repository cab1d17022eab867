import Descent.Grammar.Definition
import Descent.Proofs.Enumeration

/-!
# Flat sequences

A sequence inside of another one is never kept: it brings its items into the one around it. That
makes no difference to what is listed, as items are listed one after the other however they are
grouped (`Pattern.listing_concat`). Neither does it matter whether skips come before or after
(`Pattern.listing_skippingIn_inOrder`).
-/

namespace Descent

namespace Pattern

variable {t : Text} {enter : Word → Nat → Listing Extent}

/-! ## What is listed -/

theorem listingAll_singleton (p : Pattern) (pos : Nat) :
    listingAll t enter [p] pos = p.listing t enter pos := by
  -- Behind the item comes nothing, which leaves an extent as it is.
  have hafter (e : Extent) : (Extent.empty e.stop).after e.nodes = e :=
    congrArg (Extent.mk e.stop) (List.append_nil e.nodes)
  simp only [listingAll, Listing.map_single, hafter]
  exact Listing.map_id _

theorem listingAll_cons (p : Pattern) (ps : List Pattern) (pos : Nat) :
    listingAll t enter (p :: ps) pos =
      (p.listing t enter pos).bind fun e => (listingAll t enter ps e.stop).map (.after e.nodes) :=
  rfl

/-- Items are listed behind those before them. -/
theorem listingAll_append (ps qs : List Pattern) (pos : Nat) :
    listingAll t enter (ps ++ qs) pos =
      (listingAll t enter ps pos).bind fun e =>
        (listingAll t enter qs e.stop).map (.after e.nodes) := by
  induction ps generalizing pos with
  | nil =>
    rw [List.nil_append, listingAll, Listing.bind_single]
    exact (Extent.map_after_nil _).symm
  | cons p ps ih =>
    rw [List.cons_append, listingAll_cons, listingAll_cons, Listing.bind_bind]
    congr 1
    funext e
    rw [ih, Listing.map_bind, Listing.bind_map]
    simp only [Listing.map_map, Extent.after_after]
    rfl

theorem listingAll_items (p : Pattern) (pos : Nat) :
    listingAll t enter p.items pos = p.listing t enter pos := by
  cases p with
  | sequence items => rfl
  | _ => exact listingAll_singleton _ pos

/-- A flat sequence lists its parts one after the other. -/
theorem listing_concat (ps : List Pattern) (pos : Nat) :
    (concat ps).listing t enter pos = listingAll t enter ps pos := by
  rw [concat, listing]
  induction ps generalizing pos with
  | nil => rfl
  | cons p ps ih =>
    rw [List.flatMap_cons, listingAll_append, listingAll_items, listingAll_cons]
    simp only [ih]

/-- Alternatives are listed after those before them. -/
theorem listingAny_append (ps qs : List Pattern) (pos : Nat) :
    listingAny t enter (ps ++ qs) pos =
      listingAny t enter ps pos ++ listingAny t enter qs pos := by
  induction ps with
  | nil => rfl
  | cons p ps ih => rw [List.cons_append, listingAny, listingAny, ih, Listing.append_assoc]

theorem listing_anyOf (ps : List Pattern) (pos : Nat) :
    (anyOf ps).listing t enter pos = listingAny t enter ps pos := by
  rw [anyOf.eq_def]
  split
  · rw [listingAny, listingAny, Listing.append_nil]
  · rfl

/-! ## In a block -/

/-- The pattern with skips of the rule that is skipped around it, if there is one. -/
def skippingIn : (skip : Option Word) → (p : Pattern) → Pattern
  | none, p => p
  | some name, p => p.skipping name

/-- The patterns with skips of the rule that is skipped around them, if there is one. -/
def skippingAllIn : (skip : Option Word) → (ps : List Pattern) → List Pattern
  | none, ps => ps
  | some name, ps => skippingAll name ps

theorem skippingAllIn_nil (skip : Option Word) : skippingAllIn skip [] = [] := by
  cases skip <;> rfl

theorem skippingAllIn_cons (skip : Option Word) (p : Pattern) (ps : List Pattern) :
    skippingAllIn skip (p :: ps) = p.skippingIn skip :: skippingAllIn skip ps := by
  cases skip <;> rfl

theorem skippingAllIn_append (skip : Option Word) (ps qs : List Pattern) :
    skippingAllIn skip (ps ++ qs) = skippingAllIn skip ps ++ skippingAllIn skip qs := by
  induction ps with
  | nil => rw [skippingAllIn_nil, List.nil_append, List.nil_append]
  | cons p ps ih =>
    rw [List.cons_append, skippingAllIn_cons, skippingAllIn_cons, ih, List.cons_append]

theorem skippingIn_repetition (skip : Option Word) (item : Pattern) (minimum : Int)
    (maximum : Option Int) :
    (repetition item minimum maximum).skippingIn skip =
      repetition (item.skippingIn skip) minimum maximum := by
  cases skip <;> rfl

theorem skippingIn_choice (skip : Option Word) (alternatives : List Pattern) :
    (choice alternatives).skippingIn skip = choice (skippingAllIn skip alternatives) := by
  cases skip <;> rfl

theorem skippingIn_anyOf (skip : Option Word) (ps : List Pattern) :
    (anyOf ps).skippingIn skip = anyOf (skippingAllIn skip ps) := by
  match ps with
  | [] => cases skip <;> rfl
  | [p] => cases skip <;> rfl
  | p :: q :: ps => cases skip <;> rfl

theorem listing_skippingIn_anyOf (skip : Option Word) (ps : List Pattern) (pos : Nat) :
    ((anyOf ps).skippingIn skip).listing t enter pos =
      listingAny t enter (skippingAllIn skip ps) pos := by
  rw [skippingIn_anyOf, listing_anyOf]

theorem listing_skippingIn_sequence (skip : Option Word) (items : List Pattern) (pos : Nat) :
    ((sequence items).skippingIn skip).listing t enter pos =
      listingAll t enter (skippingAllIn skip items) pos := by
  cases skip with
  | none => rfl
  | some name => exact listing_concat _ pos

theorem listingAll_skippingAllIn_items (skip : Option Word) (p : Pattern) (pos : Nat) :
    listingAll t enter (skippingAllIn skip p.items) pos =
      (p.skippingIn skip).listing t enter pos := by
  cases p with
  | sequence items => exact (listing_skippingIn_sequence skip items pos).symm
  | _ =>
    rw [items, skippingAllIn_cons, skippingAllIn_nil, listingAll_singleton]
    exact fun _ => nofun

/-- Parts with skips are listed one after the other, wherever the skips were brought in. -/
theorem listing_skippingIn_concat (skip : Option Word) (ps : List Pattern) (pos : Nat) :
    ((concat ps).skippingIn skip).listing t enter pos =
      listingAll t enter (skippingAllIn skip ps) pos := by
  rw [concat, listing_skippingIn_sequence]
  induction ps generalizing pos with
  | nil => rfl
  | cons p ps ih =>
    rw [List.flatMap_cons, skippingAllIn_append, listingAll_append, listingAll_skippingAllIn_items,
      skippingAllIn_cons, listingAll_cons]
    simp only [ih]

theorem listing_skippingIn_inOrder (skip : Option Word) (ps : List Pattern) (pos : Nat) :
    ((inOrder ps).skippingIn skip).listing t enter pos =
      listingAll t enter (skippingAllIn skip ps) pos := by
  rw [inOrder.eq_def]
  split
  · rw [skippingAllIn_cons, skippingAllIn_nil, listingAll_singleton]
  · exact listing_skippingIn_concat skip _ pos

end Pattern

/-- The pattern with its skips lists what the pattern as it stands in its block does, and then skips
    once more. -/
theorem Definition.listing_woven (d : Definition) (t : Text) (enter : Word → Nat → Listing Extent) :
    d.woven.listing t enter = Pattern.listingAll t enter
      (d.pattern.skippingIn d.skip :: (d.skip.map Pattern.skip).toList) := by
  funext pos
  rw [woven]
  cases d.skip with
  | none => exact (Pattern.listingAll_singleton _ pos).symm
  | some name => exact Pattern.listing_concat _ pos

end Descent
