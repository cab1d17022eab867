import Descent.Description.Token
import Mathlib.Data.List.Infix
import Mathlib.Data.List.TakeWhile

/-!
# How tokens are spelled

A text spells tokens if it is made of their words in order, with filler before, between and
after them (`Token.Spells`). Filler is made of blanks and comments (`Token.Filler`), and only a
comment at the end of the text may lack its line break. Filler is needed between two names, as
they would be read as one.

The tokens that are read are the ones that are spelled, and if the text spells no tokens, there
is one among them that is unreadable (`Token.spells_iff`).
-/

namespace Descent.Token

variable {w v : Word} {c : Char}

/-! ## Filler -/

/-- The word is filler: blanks, comments up to the end of a line, and comments between `/*` and
    `*/`. At the end of a text (`final`), the last line need not end. -/
inductive Filler : (final : Bool) → (w : Word) → Prop
  | nil {final : Bool} : Filler final []
  | blank {final : Bool} {c : Char} {w : Word} (h : isFiller c) (rest : Filler final w) :
    Filler final (c :: w)
  | line {final : Bool} {comment w : Word} (h : '\n' ∉ comment) (rest : Filler final w) :
    Filler final ('/' :: '/' :: comment ++ '\n' :: w)
  | block {final : Bool} {comment w : Word} (h : ¬['*', '/'] <:+: comment)
    (rest : Filler final w) : Filler final ('/' :: '*' :: comment ++ '*' :: '/' :: w)
  | lastLine {comment : Word} (h : '\n' ∉ comment) : Filler true ('/' :: '/' :: comment)

theorem skipFiller_of_isFiller (h : isFiller c) (w : Word) :
    skipFiller (c :: w) = skipFiller w := by
  rw [skipFiller, if_pos h]
  all_goals
    rintro _ rfl
    cases h

/-- A character that begins no filler. -/
theorem skipFiller_of_not_isFiller (h : ¬isFiller c) (hslash : c ≠ '/') (w : Word) :
    skipFiller (c :: w) = c :: w := by
  rw [skipFiller, if_neg h]
  all_goals exact fun _ hc => absurd hc hslash

theorem skipLine_append (h : '\n' ∉ w) (v : Word) : skipLine (w ++ '\n' :: v) = skipFiller v := by
  induction w with
  | nil => rw [List.nil_append, skipLine, if_pos rfl]
  | cons c w ih =>
    rw [List.mem_cons, not_or] at h
    rw [List.cons_append, skipLine, if_neg (Ne.symm h.1), ih h.2]

theorem skipLine_of_not_mem (h : '\n' ∉ w) : skipLine w = [] := by
  induction w with
  | nil => rw [skipLine]
  | cons c w ih =>
    rw [List.mem_cons, not_or] at h
    rw [skipLine, if_neg (Ne.symm h.1), ih h.2]

theorem skipComment_append (h : ¬['*', '/'] <:+: w) (v : Word) :
    skipComment (w ++ '*' :: '/' :: v) = some (skipFiller v) := by
  induction w with
  | nil => rw [List.nil_append, skipComment]
  | cons c w ih =>
    rw [List.infix_cons_iff, not_or] at h
    rw [List.cons_append, skipComment, ih h.2]
    -- The end of the comment does not begin in it.
    rintro _ rfl hw
    cases w with
    | nil => cases hw
    | cons c w =>
      obtain ⟨rfl, -⟩ := List.cons.inj hw
      exact h.1 (List.prefix_append ['*', '/'] w)

/-- Filler is skipped. -/
theorem Filler.skipFiller_append {final : Bool} (h : Filler final w) (hv : final → v = []) :
    skipFiller (w ++ v) = skipFiller v := by
  induction h with
  | nil => rfl
  | blank hc _ ih => rw [List.cons_append, skipFiller_of_isFiller hc, ih hv]
  | line hcomment _ ih =>
    simp only [List.append_assoc, List.cons_append]
    rw [skipFiller, skipLine_append hcomment, ih hv]
  | block hcomment _ ih =>
    simp only [List.append_assoc, List.cons_append]
    rw [skipFiller, skipComment_append hcomment, Option.getD_some, ih hv]
  | lastLine hcomment =>
    rw [hv rfl, List.append_nil, skipFiller, skipLine_of_not_mem hcomment, skipFiller]

theorem skipLine_cases (w : Word) :
    ('\n' ∉ w ∧ skipLine w = []) ∨
      ∃ comment v, '\n' ∉ comment ∧ w = comment ++ '\n' :: v ∧ skipLine w = skipFiller v := by
  by_cases h : '\n' ∈ w
  · obtain ⟨comment, v, rfl, hcomment⟩ := List.eq_append_cons_of_mem h
    exact .inr ⟨comment, v, hcomment, rfl, skipLine_append hcomment v⟩
  · exact .inl ⟨h, skipLine_of_not_mem h⟩

theorem exists_of_skipComment {rest : Word} (h : skipComment w = some rest) :
    ∃ comment v, ¬['*', '/'] <:+: comment ∧ w = comment ++ '*' :: '/' :: v ∧
      rest = skipFiller v := by
  induction w with
  | nil => rw [skipComment] at h; cases h
  | cons c w ih =>
    rw [skipComment.eq_def] at h
    split at h
    · rename_i v hw
      exact ⟨[], v, by simp, hw, (Option.some.inj h).symm⟩
    · rename_i hend hw
      obtain ⟨rfl, rfl⟩ := List.cons.inj hw
      obtain ⟨comment, v, hcomment, rfl, hrest⟩ := ih h
      refine ⟨c :: comment, v, ?_, rfl, hrest⟩
      rw [List.infix_cons_iff, not_or]
      refine ⟨?_, hcomment⟩
      rintro ⟨u, hu⟩
      obtain ⟨rfl, rfl⟩ := List.cons.inj hu
      exact hend _ rfl rfl
    · cases h

/-- What is skipped is filler. -/
theorem exists_filler (w : Word) :
    ∃ final f, Filler final f ∧ w = f ++ skipFiller w ∧ (final → skipFiller w = []) := by
  induction hn : w.length using Nat.strongRecOn generalizing w with
  | ind n ih =>
    rw [skipFiller.eq_def]
    split
    · rename_i w
      obtain ⟨hw, hskip⟩ | ⟨comment, v, hcomment, rfl, hskip⟩ := skipLine_cases w
      · exact ⟨true, _, .lastLine hw, by rw [hskip, List.append_nil], fun _ => hskip⟩
      · simp only [List.length_append, List.length_cons] at hn
        obtain ⟨final, f, hf, hv, hend⟩ := ih v.length (by omega) v rfl
        rw [hskip]
        refine ⟨final, _, .line hcomment hf, ?_, hend⟩
        simpa using hv
    · rename_i w
      cases h : skipComment w with
      | none => exact ⟨false, [], .nil, rfl, nofun⟩
      | some rest =>
        obtain ⟨comment, v, hcomment, rfl, rfl⟩ := exists_of_skipComment h
        simp only [List.length_append, List.length_cons] at hn
        obtain ⟨final, f, hf, hv, hend⟩ := ih v.length (by omega) v rfl
        refine ⟨final, _, .block hcomment hf, ?_, hend⟩
        simpa using hv
    · rename_i c w _ _
      split
      · rename_i hc
        rw [List.length_cons] at hn
        obtain ⟨final, f, hf, hv, hend⟩ := ih w.length (by omega) w rfl
        exact ⟨final, c :: f, .blank hc hf, by rw [List.cons_append, ← hv], hend⟩
      · exact ⟨false, [], .nil, rfl, nofun⟩
    · exact ⟨false, [], .nil, rfl, nofun⟩

/-! ## Between delimiters -/

/-- The word may stand between two of the delimiters: a backslash stands before every delimiter
    and backslash in it, and never before a line break. -/
inductive Enclosed (delimiter : Char) : (body : Word) → Prop
  | nil : Enclosed delimiter []
  | plain {c : Char} {body : Word} (hc : c ≠ delimiter) (hslash : c ≠ '\\')
    (rest : Enclosed delimiter body) : Enclosed delimiter (c :: body)
  | escaped {c : Char} {body : Word} (hc : c ≠ '\n') (rest : Enclosed delimiter body) :
    Enclosed delimiter ('\\' :: c :: body)

theorem Enclosed.scanBody_append {delimiter : Char} {body : Word} (h : Enclosed delimiter body)
    (hdelimiter : delimiter ≠ '\\') (v : Word) :
    scanBody delimiter (body ++ delimiter :: v) = some (body, v) := by
  induction h with
  | nil =>
    rw [List.nil_append, scanBody, if_pos rfl]
    exact fun _ _ h => absurd h hdelimiter
  | plain hc hslash _ ih =>
    rw [List.cons_append, scanBody, if_neg hc, if_neg hslash, ih, Option.map_some]
    exact fun _ _ h => absurd h hslash
  | escaped hc _ ih =>
    rw [List.cons_append, List.cons_append, scanBody, if_neg hc, ih, Option.map_some]

theorem enclosed_of_scanBody {delimiter : Char} {body rest : Word}
    (h : scanBody delimiter w = some (body, rest)) :
    Enclosed delimiter body ∧ w = body ++ delimiter :: rest := by
  fun_induction scanBody delimiter w generalizing body with
  | case1 | case4 | case6 => cases h
  | case2 c w hc ih =>
    obtain ⟨⟨body, _⟩, hbody, heq⟩ := Option.map_eq_some_iff.1 h
    cases heq
    obtain ⟨henclosed, rfl⟩ := ih hbody
    exact ⟨.escaped hc henclosed, rfl⟩
  | case3 c w =>
    cases h
    exact ⟨.nil, rfl⟩
  | case5 c w _ hc hslash ih =>
    obtain ⟨⟨body, _⟩, hbody, heq⟩ := Option.map_eq_some_iff.1 h
    cases heq
    obtain ⟨henclosed, rfl⟩ := ih hbody
    exact ⟨.plain hc hslash henclosed, rfl⟩

/-! ## One token -/

/-- The word of a token that has only one. -/
def fixed : (token : Token) → Option Word
  | .skip => some ['@', 's', 'k', 'i', 'p']
  | .opening => some ['{']
  | .closing => some ['}']
  | .defines => some [':', ':', '=']
  | .semicolon => some [';']
  | .bar => some ['|']
  | .groupOpening => some ['(']
  | .groupClosing => some [')']
  | .quantifier .any => some ['*']
  | .quantifier .some => some ['+']
  | .quantifier .optional => some ['?']
  | .name _ | .literal _ | .charClass _ | .unreadable => none

/-- The token is a name. -/
def isName : (token : Token) → Bool
  | .name _ => true
  | _ => false

/-- The word spells the token. -/
inductive Spelled : (token : Token) → (w : Word) → Prop
  | fixed {token : Token} {w : Word} (h : token.fixed = some w) : Spelled token w
  | name {c : Char} {w : Word} (hc : isNameStart c) (hw : ∀ d ∈ w, isNameRest d) :
    Spelled (.name (c :: w)) (c :: w)
  | literal {quote : Char} {body : Word} (hquote : quote = '\'' ∨ quote = '"')
    (h : Enclosed quote body) : Spelled (.literal body) (quote :: body ++ [quote])
  | charClass {body : Word} (hbody : body ≠ []) (h : Enclosed ']' body) :
    Spelled (.charClass body) ('[' :: body ++ [']'])

/-- No name goes on with the word. -/
def EndsName (w : Word) : Prop := ∀ c ∈ w.head?, ¬isNameRest c

theorem endsName_dropWhile (w : Word) : EndsName (w.dropWhile isNameRest) := by
  intro c hc
  have h := List.head?_dropWhile_not isNameRest w
  rw [Option.mem_def.1 hc] at h
  rw [h]
  exact Bool.false_ne_true

/-- Where a name ends, the characters that may go on one are used up. -/
theorem EndsName.takeWhile_append (h : EndsName v) (hw : ∀ d ∈ w, isNameRest d) :
    (w ++ v).takeWhile isNameRest = w ∧ (w ++ v).dropWhile isNameRest = v := by
  rw [List.takeWhile_append_of_pos hw, List.dropWhile_append_of_pos hw]
  cases v with
  | nil => exact ⟨List.append_nil w, rfl⟩
  | cons d v =>
    rw [List.takeWhile_cons_of_neg (h d rfl), List.dropWhile_cons_of_neg (h d rfl)]
    exact ⟨List.append_nil w, rfl⟩

/-- A token is read where it is spelled, if a name does not go on. -/
theorem Spelled.scan_append {token : Token} (h : Spelled token w) (hv : token.isName → EndsName v) :
    scan (w ++ v) = some (token, v) := by
  cases h with
  | fixed h =>
    cases token with
    | quantifier q => cases q <;> cases h <;> rfl
    | _ => cases h <;> rfl
  | name hc hw =>
    obtain ⟨htake, hdrop⟩ := (hv rfl).takeWhile_append hw
    rw [List.cons_append, scan, if_pos hc, htake, hdrop]
    -- A name begins with no other token.
    all_goals
      intros
      subst_vars
      cases hc
  | literal hquote h =>
    obtain rfl | rfl := hquote
    · rw [List.append_assoc, List.cons_append, List.singleton_append, scan,
        h.scanBody_append (by decide)]
      rfl
    · rw [List.append_assoc, List.cons_append, List.singleton_append, scan,
        h.scanBody_append (by decide)]
      rfl
  | @charClass body hbody h =>
    obtain ⟨c, body, rfl⟩ := List.exists_cons_of_ne_nil hbody
    rw [List.append_assoc, List.cons_append, List.singleton_append, scan,
      h.scanBody_append (by decide)]

/-- A token that is read is spelled. -/
theorem exists_of_scan {token : Token} (h : scan w = some (token, v)) :
    ∃ u, Spelled token u ∧ w = u ++ v ∧ (token.isName → EndsName v) := by
  rw [scan.eq_def] at h
  split at h
  iterate 11
    cases h
    exact ⟨_, .fixed rfl, rfl, nofun⟩
  iterate 2
    obtain ⟨⟨body, _⟩, hbody, heq⟩ := Option.map_eq_some_iff.1 h
    cases heq
    obtain ⟨henclosed, rfl⟩ := enclosed_of_scanBody hbody
    exact ⟨_, .literal (by simp) henclosed, by simp, nofun⟩
  · split at h
    · rename_i hbody
      cases h
      obtain ⟨henclosed, rfl⟩ := enclosed_of_scanBody hbody
      exact ⟨_, .charClass (List.cons_ne_nil _ _) henclosed, by simp, nofun⟩
    · cases h
  · split at h
    · rename_i hc
      cases h
      refine ⟨_, .name hc fun _ => List.mem_takeWhile_imp, ?_, fun _ => endsName_dropWhile _⟩
      rw [List.cons_append, List.takeWhile_append_dropWhile]
    · cases h
  · cases h

theorem not_isNameRest_of_isFiller (h : isFiller c) : ¬isNameRest c := by
  simp only [isFiller, Bool.or_eq_true, decide_eq_true_eq] at h
  obtain (((rfl | rfl) | rfl) | rfl) | rfl := h <;> decide

theorem isNameRest_of_isNameStart (h : isNameStart c) : isNameRest c := by
  rw [isNameStart, Bool.or_eq_true] at h
  rw [isNameRest, Char.isAlphanum, Bool.or_eq_true, Bool.or_eq_true]
  exact h.imp_left .inl

/-- A token begins with a character that begins no filler. -/
theorem Spelled.exists_cons {token : Token} (h : Spelled token w) :
    ∃ c u, w = c :: u ∧ ¬isFiller c ∧ c ≠ '/' ∧ (isNameRest c ↔ token.isName) := by
  cases h with
  | fixed h =>
    cases token with
    | quantifier q => cases q <;> cases h <;> exact ⟨_, _, rfl, by decide⟩
    | _ => cases h <;> exact ⟨_, _, rfl, by decide⟩
  | name hc =>
    have hrest := isNameRest_of_isNameStart hc
    refine ⟨_, _, rfl, fun h => not_isNameRest_of_isFiller h hrest, ?_, iff_of_true hrest rfl⟩
    rintro rfl
    cases hrest
  | literal hquote =>
    obtain rfl | rfl := hquote <;>
      exact ⟨_, _, rfl, by decide, by decide, iff_of_false (by decide) nofun⟩
  | charClass => exact ⟨_, _, rfl, by decide, by decide, iff_of_false (by decide) nofun⟩

theorem Spelled.skipFiller_append {token : Token} (h : Spelled token w) (v : Word) :
    skipFiller (w ++ v) = w ++ v := by
  obtain ⟨c, u, rfl, hc, hslash, -⟩ := h.exists_cons
  exact skipFiller_of_not_isFiller hc hslash (u ++ v)

theorem Spelled.ne_unreadable {token : Token} (h : Spelled token w) : token ≠ .unreadable := by
  rintro rfl
  cases h with
  | fixed h => cases h

/-! ## All tokens -/

/-- The word spells the tokens, with filler before, between and after them. If a name stands just
    before the word (`afterName`), filler is needed before another one. -/
inductive Spells : (afterName : Bool) → (tokens : List Token) → (w : Word) → Prop
  | nil {afterName : Bool} {w : Word} (h : Filler true w) : Spells afterName [] w
  | cons {afterName : Bool} {token : Token} {tokens : List Token} {f u v : Word}
    (hf : Filler false f) (hgap : afterName → token.isName → f ≠ []) (h : Spelled token u)
    (rest : Spells token.isName tokens v) : Spells afterName (token :: tokens) (f ++ u ++ v)

theorem Filler.endsName {final : Bool} (h : Filler final w) : EndsName w := by
  cases h with
  | nil => nofun
  | blank hc =>
    rintro _ ⟨⟩
    exact not_isNameRest_of_isFiller hc
  | line | block | lastLine =>
    rintro _ ⟨⟩
    decide

/-- A name ends before what is spelled after it. -/
theorem Spells.endsName {tokens : List Token} (h : Spells true tokens w) : EndsName w := by
  cases h with
  | nil h => exact h.endsName
  | @cons _ _ _ f u v hf hgap h =>
    cases f with
    | nil =>
      obtain ⟨c, u, rfl, -, -, hname⟩ := h.exists_cons
      rintro _ ⟨⟩ hrest
      exact hgap rfl (hname.1 hrest) rfl
    | cons c f =>
      rintro _ ⟨⟩
      exact hf.endsName c rfl

/-- The tokens that are spelled are read. -/
theorem Spells.lexFrom_eq {afterName : Bool} {tokens : List Token} (h : Spells afterName tokens w)
    {bound : Nat} (hbound : w.length ≤ bound) : (lexFrom bound w).map (·.1) = tokens := by
  induction h generalizing bound with
  | @nil _ w h =>
    have hskip := h.skipFiller_append (v := []) fun _ => rfl
    rw [List.append_nil, skipFiller] at hskip
    cases bound with
    | zero => rfl
    | succ bound =>
      rw [lexFrom, hskip]
      rfl
  | @cons _ token tokens f u v hf _ h rest ih =>
    obtain ⟨c, u, rfl, -⟩ := h.exists_cons
    have hskip : skipFiller (f ++ (c :: u) ++ v) = c :: (u ++ v) := by
      rw [List.append_assoc, hf.skipFiller_append nofun, h.skipFiller_append]
      rfl
    have hscan : scan (c :: (u ++ v)) = some (token, v) :=
      h.scan_append fun hname => Spells.endsName (hname ▸ rest)
    simp only [List.length_append, List.length_cons] at hbound
    cases bound with
    | zero => omega
    | succ bound =>
      rw [lexFrom, hskip]
      dsimp only
      rw [hscan]
      dsimp only
      rw [List.map_cons, ih (by omega)]

theorem Spells.unreadable_not_mem {afterName : Bool} {tokens : List Token}
    (h : Spells afterName tokens w) : .unreadable ∉ tokens := by
  induction h with
  | nil => exact List.not_mem_nil
  | cons _ _ h _ ih =>
    rw [List.mem_cons, not_or]
    exact ⟨h.ne_unreadable.symm, ih⟩

theorem Filler.weaken (h : Filler false w) : Filler true w := by
  generalize hfinal : false = final at h
  induction h with
  | nil => exact .nil
  | blank hc _ ih => exact .blank hc (ih hfinal)
  | line hcomment _ ih => exact .line hcomment (ih hfinal)
  | block hcomment _ ih => exact .block hcomment (ih hfinal)
  | lastLine => cases hfinal

/-- Nothing but filler is skipped up to the end. -/
theorem filler_of_skipFiller (h : skipFiller w = []) : Filler true w := by
  obtain ⟨final, f, hf, hw, -⟩ := exists_filler w
  rw [h, List.append_nil] at hw
  cases final with
  | true => exact hw ▸ hf
  | false => exact hw ▸ hf.weaken

/-- Filler that is skipped up to a character is closed. -/
theorem exists_filler_of_cons (h : skipFiller w = c :: v) :
    ∃ f, Filler false f ∧ w = f ++ c :: v := by
  obtain ⟨final, f, hf, hw, hend⟩ := exists_filler w
  rw [h] at hw hend
  cases final with
  | true => cases hend rfl
  | false => exact ⟨f, hf, hw⟩

/-- The tokens that are read are spelled, if none is unreadable. -/
theorem spells_of_lexFrom {bound : Nat} (hbound : w.length ≤ bound) {afterName : Bool}
    (hname : afterName → EndsName w)
    (hreadable : .unreadable ∉ (lexFrom bound w).map (·.1)) :
    Spells afterName ((lexFrom bound w).map (·.1)) w := by
  induction bound generalizing w afterName with
  | zero =>
    rw [List.length_eq_zero_iff.1 (Nat.le_zero.1 hbound)]
    exact .nil .nil
  | succ bound ih =>
    rw [lexFrom] at hreadable ⊢
    cases hskip : skipFiller w with
    | nil => exact .nil (filler_of_skipFiller hskip)
    | cons c start =>
      rw [hskip] at hreadable
      dsimp only at hreadable ⊢
      cases hscan : scan (c :: start) with
      | none =>
        rw [hscan] at hreadable
        exact absurd (List.mem_singleton_self _) hreadable
      | some result =>
        obtain ⟨token, v⟩ := result
        rw [hscan] at hreadable
        dsimp only at hreadable ⊢
        rw [List.map_cons, List.mem_cons, not_or] at hreadable
        obtain ⟨f, hf, rfl⟩ := exists_filler_of_cons hskip
        obtain ⟨u, hu, huv, hend⟩ := exists_of_scan hscan
        have hlength := congrArg List.length huv
        obtain ⟨d, u, rfl, -, -, hrest⟩ := hu.exists_cons
        simp only [List.length_append, List.length_cons] at hlength hbound
        rw [List.map_cons, huv, ← List.append_assoc]
        refine .cons hf ?_ hu (ih (by omega) hend hreadable.2)
        -- Without filler, the name before would go on.
        rintro hafter htoken rfl
        rw [List.cons_append] at huv
        obtain ⟨rfl, -⟩ := List.cons.inj huv
        exact hname hafter c rfl (hrest.2 htoken)

/-- The text spells the tokens that are read, if none is unreadable, and no others. -/
theorem spells_iff {tokens : List Token} :
    Spells false tokens w ↔ (lex w).map (·.1) = tokens ∧ .unreadable ∉ tokens := by
  refine ⟨fun h => ⟨h.lexFrom_eq (Nat.le_refl _), h.unreadable_not_mem⟩, ?_⟩
  rintro ⟨rfl, hreadable⟩
  exact spells_of_lexFrom (Nat.le_refl _) nofun hreadable

end Descent.Token
