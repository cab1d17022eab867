import Descent.Proofs.Description.Spelling

/-!
# Where tokens stand

A token is found at a place of a text if the text spells tokens up to there, with filler in front
of each of them (`Token.Leads`), and the token stands at the place (`Token.StandsAt`). There, it is
spelled, or nothing is, so that the place is unreadable.

These are the tokens that are read, each with the part of the text that begins at its place
(`Token.exists_lex_eq_iff`). What does not end, as a literal without its closing quote, is
unreadable from its first character on (`Token.standsAt_unreadable_of_quote` and the like).
-/

namespace Descent.Token

variable {w v f u : Word} {c : Char} {token : Token} {tokens : List Token}

/-! ## Places -/

/-- Filler stands at the beginning of the word. -/
def BeginsWithFiller (w : Word) : Prop :=
  ∃ final f v, Filler final f ∧ f ≠ [] ∧ (final → v = []) ∧ w = f ++ v

/-- The token stands at the beginning of the word. A name stands there as a whole. The word is
    unreadable if neither filler nor a token stands there. -/
inductive StandsAt : (token : Token) → (w : Word) → Prop
  | spelled {token : Token} {u v : Word} (h : Spelled token u) (hend : token.isName → EndsName v) :
    StandsAt token (u ++ v)
  | unreadable {w : Word} (hw : w ≠ []) (hfiller : ¬BeginsWithFiller w)
    (h : ∀ token u v, Spelled token u → w ≠ u ++ v) : StandsAt .unreadable w

/-- The word begins with filler and the tokens, up to the place where `v` begins, with filler in
    front of each token and of the place. -/
inductive Leads : (tokens : List Token) → (w v : Word) → Prop
  | nil {f v : Word} (hf : Filler false f) : Leads [] (f ++ v) v
  | cons {token : Token} {tokens : List Token} {f u w v : Word} (hf : Filler false f)
    (h : Spelled token u) (hend : token.isName → EndsName w) (rest : Leads tokens w v) :
    Leads (token :: tokens) (f ++ (u ++ w)) v

theorem Leads.suffix (h : Leads tokens w v) : v <:+ w := by
  induction h with
  | nil => exact List.suffix_append _ _
  | cons _ _ _ _ ih =>
    rw [← List.append_assoc]
    exact ih.trans (List.suffix_append _ _)

theorem skipFiller_suffix (w : Word) : skipFiller w <:+ w := by
  obtain ⟨_, f, -, hw, -⟩ := exists_filler w
  exact ⟨f, hw.symm⟩

/-- Nothing is skipped if no filler stands at the beginning. -/
theorem skipFiller_eq_self_iff : skipFiller w = w ↔ ¬BeginsWithFiller w := by
  constructor
  · rintro h ⟨final, f, v, hf, hne, hend, rfl⟩
    rw [hf.skipFiller_append hend] at h
    have hle := (skipFiller_suffix v).length_le
    rw [h, List.length_append] at hle
    exact hne (List.length_eq_zero_iff.1 (by omega))
  · intro h
    obtain ⟨final, f, hf, hw, hend⟩ := exists_filler w
    by_contra hskip
    refine h ⟨final, f, _, hf, ?_, hend, hw⟩
    rintro rfl
    exact hskip hw.symm

theorem StandsAt.ne_nil (h : StandsAt token w) : w ≠ [] := by
  cases h with
  | spelled h =>
    obtain ⟨c, u, rfl, -⟩ := h.exists_cons
    exact List.cons_ne_nil _ _
  | unreadable hw => exact hw

/-- Where a token is spelled, one is read, which is longer if it is a name that goes on. -/
theorem exists_scan (h : Spelled token u) (v : Word) : ∃ result, scan (u ++ v) = some result := by
  cases token with
  | name word =>
    cases h with
    | fixed h => cases h
    | name hc hu =>
      have hall : ∀ d ∈ _ ++ v.takeWhile isNameRest, isNameRest d :=
        List.forall_mem_append.2 ⟨hu, fun _ => List.mem_takeWhile_imp⟩
      have hscan := (Spelled.name hc hall).scan_append fun _ => endsName_dropWhile v
      rw [List.cons_append, List.append_assoc, List.takeWhile_append_dropWhile] at hscan
      exact ⟨_, hscan⟩
  | _ => exact ⟨_, h.scan_append nofun⟩

/-- Nothing is read if no token is spelled. -/
theorem scan_eq_none_iff : scan w = none ↔ ∀ token u v, Spelled token u → w ≠ u ++ v := by
  constructor
  · rintro h token u v hu rfl
    obtain ⟨result, hscan⟩ := exists_scan hu v
    exact absurd (h.symm.trans hscan) nofun
  · intro h
    cases hscan : scan w with
    | none => rfl
    | some result =>
      obtain ⟨u, hu, hw, -⟩ := exists_of_scan hscan
      exact absurd hw (h _ u _ hu)

/-! ## Places that are unreadable -/

theorem standsAt_unreadable (hskip : skipFiller (c :: w) = c :: w) (hscan : scan (c :: w) = none) :
    StandsAt .unreadable (c :: w) :=
  .unreadable (List.cons_ne_nil c w) (skipFiller_eq_self_iff.1 hskip) (scan_eq_none_iff.1 hscan)

/-- A literal is unreadable from its opening quote on if it does not end. -/
theorem standsAt_unreadable_of_quote (hc : c = '\'' ∨ c = '"')
    (h : ∀ body v, Enclosed c body → w ≠ body ++ c :: v) : StandsAt .unreadable (c :: w) := by
  have hbody : scanBody c w = none := by
    refine Option.eq_none_iff_forall_ne_some.2 fun ⟨body, v⟩ hscan => ?_
    obtain ⟨henclosed, heq⟩ := enclosed_of_scanBody hscan
    exact h body v henclosed heq
  obtain rfl | rfl := hc
  all_goals
    refine standsAt_unreadable (skipFiller_of_not_isFiller (by decide) (by decide) w) ?_
    rw [scan, hbody, Option.map_none]

/-- A class is unreadable from its opening bracket on if it does not end, or has nothing in it. -/
theorem standsAt_unreadable_of_bracket
    (h : ∀ body v, body ≠ [] → Enclosed ']' body → w ≠ body ++ ']' :: v) :
    StandsAt .unreadable ('[' :: w) := by
  refine standsAt_unreadable (skipFiller_of_not_isFiller (by decide) (by decide) w) ?_
  rw [scan]
  split
  · rename_i hscan
    obtain ⟨henclosed, heq⟩ := enclosed_of_scanBody hscan
    exact absurd heq (h _ _ (List.cons_ne_nil _ _) henclosed)
  · rfl

/-- A comment that does not end is unreadable from its opening on. -/
theorem standsAt_unreadable_of_comment (h : ¬['*', '/'] <:+: w) :
    StandsAt .unreadable ('/' :: '*' :: w) := by
  have hcomment : skipComment w = none := by
    refine Option.eq_none_iff_forall_ne_some.2 fun rest hskip => ?_
    obtain ⟨comment, v, -, rfl, -⟩ := exists_of_skipComment hskip
    exact h ⟨comment, v, by simp⟩
  refine standsAt_unreadable ?_ rfl
  rw [skipFiller, hcomment, Option.getD_none]

/-! ## The tokens that are read -/

/-- The first token is read with the word after the filler. -/
theorem lexFrom_of_spelled (hf : Filler false f) (h : Spelled token u)
    (hend : token.isName → EndsName v) (bound : Nat) :
    lexFrom (bound + 1) (f ++ (u ++ v)) = (token, u ++ v) :: lexFrom bound v := by
  obtain ⟨c, start, rfl, -⟩ := id h.exists_cons
  rw [lexFrom, hf.skipFiller_append (absurd · Bool.false_ne_true), h.skipFiller_append]
  dsimp only [List.cons_append]
  rw [← List.cons_append, h.scan_append hend]

/-- A place that is unreadable is the last one. -/
theorem lexFrom_of_unreadable (hf : Filler false f) (h : StandsAt .unreadable v) (bound : Nat) :
    lexFrom (bound + 1) (f ++ v) = [(.unreadable, v)] := by
  cases h with
  | spelled h => exact absurd rfl h.ne_unreadable
  | unreadable hv hfiller h =>
    obtain ⟨c, start, rfl⟩ := List.exists_cons_of_ne_nil hv
    rw [lexFrom, hf.skipFiller_append (absurd · Bool.false_ne_true),
      skipFiller_eq_self_iff.2 hfiller]
    dsimp only
    rw [scan_eq_none_iff.2 h]

/-- What stands at the place up to which tokens are read is read next. -/
theorem Leads.exists_lexFrom_eq (h : Leads tokens w v) (hv : StandsAt token v) {bound : Nat}
    (hbound : w.length ≤ bound) :
    ∃ before later, lexFrom bound w = before ++ (token, v) :: later ∧
      before.map (·.1) = tokens := by
  induction h generalizing bound with
  | @nil f v hf =>
    have hlength := List.length_pos_iff.2 hv.ne_nil
    rw [List.length_append] at hbound
    obtain _ | bound := bound
    · omega
    cases hv with
    | spelled h hend => exact ⟨[], _, lexFrom_of_spelled hf h hend bound, rfl⟩
    | unreadable hv hfiller h =>
      exact ⟨[], [], lexFrom_of_unreadable hf (.unreadable hv hfiller h) bound, rfl⟩
  | @cons first tokens f u w v hf h hend _ ih =>
    have hlength := List.length_pos_iff.2 (StandsAt.spelled h hend).ne_nil
    simp only [List.length_append] at hbound hlength
    obtain _ | bound := bound
    · omega
    obtain ⟨c, u, rfl, -⟩ := id h.exists_cons
    rw [List.length_cons] at hbound
    obtain ⟨before, later, heq, rfl⟩ := ih hv (show w.length ≤ bound by omega)
    refine ⟨(first, c :: u ++ w) :: before, later, ?_, rfl⟩
    rw [lexFrom_of_spelled hf h hend, heq]
    rfl

/-- After filler, a token is read, or the place is unreadable. -/
theorem lexFrom_cases (bound : Nat) (w : Word) :
    lexFrom (bound + 1) w = [] ∨ ∃ f v, Filler false f ∧ w = f ++ v ∧
      ((∃ token u rest, v = u ++ rest ∧ Spelled token u ∧ (token.isName → EndsName rest) ∧
        lexFrom (bound + 1) w = (token, v) :: lexFrom bound rest) ∨
      StandsAt .unreadable v ∧ lexFrom (bound + 1) w = [(.unreadable, v)]) := by
  cases hskip : skipFiller w with
  | nil =>
    rw [lexFrom, hskip]
    exact .inl rfl
  | cons c start =>
    obtain ⟨f, hf, rfl⟩ := exists_filler_of_cons hskip
    refine .inr ⟨f, c :: start, hf, rfl, ?_⟩
    cases hscan : scan (c :: start) with
    | some result =>
      obtain ⟨u, hu, heq, hend⟩ := exists_of_scan hscan
      refine .inl ⟨_, u, _, heq, hu, hend, ?_⟩
      rw [heq, lexFrom_of_spelled hf hu hend]
    | none =>
      rw [hf.skipFiller_append (absurd · Bool.false_ne_true)] at hskip
      have hstart := standsAt_unreadable hskip hscan
      exact .inr ⟨hstart, lexFrom_of_unreadable hf hstart bound⟩

/-- What is read stands at its place, up to which the tokens before it are read. -/
theorem leads_of_lexFrom_eq {bound : Nat} {before later : List (Token × Word)}
    (h : lexFrom bound w = before ++ (token, v) :: later) :
    Leads (before.map (·.1)) w v ∧ StandsAt token v := by
  induction bound generalizing w before with
  | zero => cases before <;> cases h
  | succ bound ih =>
    obtain hnil | ⟨f, start, hf, rfl, ⟨_, u, rest, rfl, hu, hend, heq⟩ | ⟨hstart, heq⟩⟩ :=
      lexFrom_cases bound w
    · cases before <;> cases hnil.symm.trans h
    · cases before with
      | nil =>
        cases heq.symm.trans h
        exact ⟨.nil hf, .spelled hu hend⟩
      | cons entry before =>
        obtain ⟨rfl, hrest⟩ := List.cons.inj (heq.symm.trans h)
        obtain ⟨hleads, hv⟩ := ih hrest
        exact ⟨.cons hf hu hend hleads, hv⟩
    · -- Nothing comes after an unreadable place, so it is the one that is read here.
      cases before with
      | nil =>
        cases heq.symm.trans h
        exact ⟨.nil hf, hstart⟩
      | cons entry before =>
        obtain ⟨-, hrest⟩ := List.cons.inj (heq.symm.trans h)
        cases before <;> cases hrest

/-- What is read and where: the tokens before the place, and what stands there. -/
theorem exists_lex_eq_iff :
    (∃ before later, lex w = before ++ (token, v) :: later ∧ before.map (·.1) = tokens) ↔
      Leads tokens w v ∧ StandsAt token v := by
  constructor
  · rintro ⟨before, later, h, rfl⟩
    exact leads_of_lexFrom_eq h
  · rintro ⟨hleads, hv⟩
    exact hleads.exists_lexFrom_eq hv (Nat.le_refl _)

end Descent.Token
