import Descent.Proofs.Description.Beginning
import Descent.Proofs.Description.Place
import Descent.Proofs.Description.Requirement

/-!
# The first mistake in a description

A text that spells no description has a first mistake (`FirstMistake`). It is the token, or the
place that is unreadable, with which its tokens no longer begin a description. If there is none, the
text ends too early, and the mistake is put at its last token.

This is where the reader stops (`Description.parse_eq_error_iff`), and the line and the column that
are reported are those of the first character of the mistake (`Grammar.compile_malformed`).
-/

namespace Descent

variable {w v : Word} {tokens : List Token} {token : Token}

/-! ## Mistakes -/

open Token in
/-- The first mistake in the text `w` is at the beginning of its part `v`. The tokens before it begin
    a description, and so do those before any of them. -/
inductive FirstMistake (w : Word) : (v : Word) → Prop
  /-- No description goes on with what stands there. -/
  | refused {tokens : List Token} {token : Token} {v : Word} (hleads : Leads tokens w v)
    (hv : StandsAt token v) (hbefore : BeginsDescription tokens)
    (hrefused : ¬BeginsDescription (tokens ++ [token])) : FirstMistake w v
  /-- The last token stands there, up to which the tokens begin a description, but are none. -/
  | ended {tokens : List Token} {token : Token} {v : Word} (hleads : Leads tokens w v)
    (hv : StandsAt token v) (hspells : Spells false (tokens ++ [token]) w)
    (hbegins : BeginsDescription (tokens ++ [token]))
    (hended : ∀ d, ¬IsDescription (tokens ++ [token]) d) : FirstMistake w v

theorem FirstMistake.suffix (h : FirstMistake w v) : v <:+ w := by
  cases h with
  | refused hleads | ended hleads => exact hleads.suffix

/-! ## Where the reader stops -/

theorem Token.Leads.spellable (h : Leads tokens w v) : ∀ token ∈ tokens, token.Spellable := by
  induction h with
  | nil => nofun
  | cons _ h _ _ ih => exact List.forall_mem_cons.2 ⟨⟨_, h⟩, ih⟩

namespace Reader

variable {s s' : State} {last start : Word} {entries before later : List (Token × Word)}

/-- After tokens that are read, the reader goes on from its state. -/
theorem run_append (h : (before.map (·.1)).foldlM step s = some s') (last : Word)
    (later : List (Token × Word)) :
    run s last (before ++ later) = run s' ((before.map (·.2)).getLastD last) later := by
  induction before generalizing s last with
  | nil =>
    cases h
    rfl
  | cons entry before ih =>
    obtain ⟨token, start⟩ := entry
    rw [List.map_cons, List.foldlM_cons] at h
    obtain ⟨mid, hmid, h⟩ := Option.bind_eq_some_iff.1 h
    rw [List.cons_append, run, hmid]
    dsimp only
    rw [ih h, List.map_cons, List.getLastD_cons]

/-- The tokens are read, or one of them is refused. -/
theorem read_or_refused (s : State) (entries : List (Token × Word)) :
    (∃ s', (entries.map (·.1)).foldlM step s = some s') ∨
      ∃ before token start later s', entries = before ++ (token, start) :: later ∧
        (before.map (·.1)).foldlM step s = some s' ∧ step s' token = none := by
  induction entries generalizing s with
  | nil => exact .inl ⟨s, rfl⟩
  | cons entry entries ih =>
    obtain ⟨token, start⟩ := entry
    cases hstep : step s token with
    | none => exact .inr ⟨[], token, start, entries, s, rfl, rfl, hstep⟩
    | some mid =>
      have hcons (rest : List (Token × Word)) :
          (((token, start) :: rest).map (·.1)).foldlM step s = (rest.map (·.1)).foldlM step mid := by
        rw [List.map_cons, List.foldlM_cons, hstep]
        rfl
      obtain ⟨s', h⟩ | ⟨before, other, place, later, s', rfl, h, hrefused⟩ := ih mid
      · exact .inl ⟨s', (hcons entries).trans h⟩
      · exact .inr ⟨_ :: before, other, place, later, s', rfl, (hcons before).trans h, hrefused⟩

/-- The reader stops at a token that is refused, or at the last one if nothing may end there. -/
theorem run_eq_error_iff :
    run s last entries = .error start ↔
      (∃ before token later s', entries = before ++ (token, start) :: later ∧
        (before.map (·.1)).foldlM step s = some s' ∧ step s' token = none) ∨
      ∃ s', (entries.map (·.1)).foldlM step s = some s' ∧ finish s' = none ∧
        (entries.map (·.2)).getLastD last = start := by
  constructor
  · intro h
    obtain ⟨s', hread⟩ | ⟨before, token, place, later, s', rfl, hread, hrefused⟩ :=
      read_or_refused s entries
    · have hrun := run_append hread last []
      rw [List.append_nil, h, run] at hrun
      split at hrun
      · cases hrun
      · rename_i hfinish
        cases hrun
        exact .inr ⟨s', hread, hfinish, rfl⟩
    · rw [run_append hread, run, hrefused] at h
      cases h
      exact .inl ⟨before, token, later, s', rfl, hread, hrefused⟩
  · rintro (⟨before, token, later, s', rfl, hread, hrefused⟩ | ⟨s', hread, hfinish, rfl⟩)
    · rw [run_append hread, run, hrefused]
    · have hrun := run_append hread last []
      rw [List.append_nil, run, hfinish] at hrun
      exact hrun

end Reader

open Reader

/-- Where the reader has come, it goes on with what stands there just if a description does. -/
theorem beginsDescription_concat_iff {s : State} (hbefore : BeginsDescription tokens)
    (hs : tokens.foldlM step .initial = some s) (hv : token.StandsAt v) :
    BeginsDescription (tokens ++ [token]) ↔ ∃ s', step s token = some s' := by
  have hconcat : (tokens ++ [token]).foldlM step .initial = step s token := by
    rw [List.foldlM_append, hs]
    exact bind_pure (step s token)
  rw [beginsDescription_iff, hconcat, List.forall_mem_append, List.forall_mem_singleton]
  refine ⟨And.right, fun ⟨s', hs'⟩ => ⟨⟨(beginsDescription_iff.1 hbefore).1, ?_⟩, s', hs'⟩⟩
  cases hv with
  | spelled h => exact ⟨_, h⟩
  | unreadable => exact absurd (by simp) (unreadable_not_mem (hconcat.trans hs'))

/-- What the reader refuses is the first mistake, and so is the last token if it may not end. -/
theorem firstMistake_of_parse (h : Description.parse w = .error v) : FirstMistake w v := by
  obtain ⟨before, token, later, s, hlex, hread, hrefused⟩ | ⟨s, hread, hfinish, hlast⟩ :=
    run_eq_error_iff.1 h
  · obtain ⟨hleads, hv⟩ := Token.exists_lex_eq_iff.1 ⟨before, later, hlex, rfl⟩
    have hbefore := beginsDescription_iff.2 ⟨hleads.spellable, s, hread⟩
    refine .refused hleads hv hbefore fun hbegins => ?_
    obtain ⟨s', hs'⟩ := (beginsDescription_concat_iff hbefore hread hv).1 hbegins
    cases hrefused.symm.trans hs'
  · obtain hnil | ⟨before, ⟨token, place⟩, hlex⟩ := List.eq_nil_or_concat' (Token.lex w)
    · -- A description may end where nothing is read.
      rw [hnil] at hread
      cases hread
      cases hfinish
    · obtain ⟨hleads, hv⟩ := Token.exists_lex_eq_iff.1 ⟨before, [], hlex, rfl⟩
      have hspells := Token.spells_iff.2 ⟨rfl, unreadable_not_mem hread⟩
      rw [hlex, List.map_append, List.map_singleton] at hlast hread hspells
      rw [List.getLastD_concat] at hlast
      subst hlast
      refine .ended hleads hv hspells
        (beginsDescription_iff.2 ⟨hspells.spellable, s, hread⟩) fun d hd => ?_
      have hd := accepts_iff.2 hd
      rw [hread, Option.bind_some, hfinish] at hd
      cases hd

/-- The reader stops at the first mistake. -/
theorem Description.parse_eq_error_iff : Description.parse w = .error v ↔ FirstMistake w v := by
  refine ⟨firstMistake_of_parse, fun h => run_eq_error_iff.2 ?_⟩
  cases h with
  | refused hleads hv hbefore hrefused =>
    obtain ⟨-, s, hs⟩ := beginsDescription_iff.1 hbefore
    obtain ⟨before, later, hlex, rfl⟩ := Token.exists_lex_eq_iff.2 ⟨hleads, hv⟩
    refine .inl ⟨before, _, later, s, hlex, hs, ?_⟩
    rw [beginsDescription_concat_iff hbefore hs hv, not_exists] at hrefused
    exact Option.eq_none_iff_forall_ne_some.2 hrefused
  | ended hleads hv hspells hbegins hended =>
    obtain ⟨-, s, hs⟩ := beginsDescription_iff.1 hbegins
    obtain ⟨before, later, hlex, rfl⟩ := Token.exists_lex_eq_iff.2 ⟨hleads, hv⟩
    -- The text spells no tokens after that, so none are read.
    have htokens := (Token.spells_iff.1 hspells).1
    rw [hlex, List.map_append, List.map_cons, List.append_cancel_left_eq, List.cons.injEq,
      List.map_eq_nil_iff] at htokens
    obtain ⟨-, rfl⟩ := htokens
    refine .inr ⟨s, ?_, ?_, ?_⟩
    · rw [hlex, List.map_append, List.map_singleton, hs]
    · refine Option.eq_none_iff_forall_ne_some.2 fun d hd => hended d (accepts_iff.1 ?_)
      rw [hs, Option.bind_some, hd]
    · rw [hlex, List.map_append, List.map_singleton, List.getLastD_concat]

/-- There is one first mistake at most. -/
theorem FirstMistake.unique {u : Word} (h : FirstMistake w v) (h' : FirstMistake w u) : v = u := by
  rw [← Description.parse_eq_error_iff] at h h'
  exact Except.error.inj (h.symm.trans h')

/-- What spells no description has a first mistake. -/
theorem exists_firstMistake (h : ∀ tokens d, Token.Spells false tokens w → ¬IsDescription tokens d) :
    ∃ before v, w = before ++ v ∧ FirstMistake w v := by
  cases hparse : Description.parse w with
  | ok d =>
    obtain ⟨tokens, hspells, hd⟩ := Description.parse_eq_ok_iff.1 hparse
    exact absurd hd (h tokens d hspells)
  | error v =>
    have hmistake := Description.parse_eq_error_iff.1 hparse
    obtain ⟨before, rfl⟩ := hmistake.suffix
    exact ⟨before, v, rfl, hmistake⟩

/-! ## The position of a mistake -/

/-- The position is the one just after the word, with the number of its lines, and with the number of
    characters in the last of them, both counted from `1`. -/
structure Position.IsAfter (p : Position) (w : Word) : Prop where
  /-- Only a line break ends a line. -/
  line : p.line = w.count '\n' + 1
  /-- The last line begins after the last line break, or with the word. -/
  column : ∃ earlier last, w = earlier ++ last ∧ (earlier = [] ∨ ['\n'] <:+ earlier) ∧
    '\n' ∉ last ∧ p.column = last.length + 1

/-- Back from the end of a word, its last line comes before any line break. -/
theorem takeWhile_reverse_append {earlier last : Word} (hearlier : earlier = [] ∨ ['\n'] <:+ earlier)
    (hlast : '\n' ∉ last) : (earlier ++ last).reverse.takeWhile (· ≠ '\n') = last.reverse := by
  have hall : ∀ c ∈ last.reverse, decide (c ≠ '\n') := by
    intro c hc
    refine decide_eq_true ?_
    rintro rfl
    exact hlast (List.mem_reverse.1 hc)
  rw [List.reverse_append, List.takeWhile_append_of_pos hall]
  obtain rfl | ⟨start, rfl⟩ := hearlier
  · exact List.append_nil _
  · rw [List.reverse_append]
    exact List.append_nil _

theorem exists_last_line (w : Word) :
    ∃ earlier last, w = earlier ++ last ∧ (earlier = [] ∨ ['\n'] <:+ earlier) ∧ '\n' ∉ last := by
  induction w using List.reverseRecOn with
  | nil => exact ⟨[], [], rfl, .inl rfl, List.not_mem_nil⟩
  | append_singleton w c ih =>
    by_cases hc : c = '\n'
    · subst hc
      exact ⟨w ++ ['\n'], [], (List.append_nil _).symm, .inr (List.suffix_append _ _),
        List.not_mem_nil⟩
    · obtain ⟨earlier, last, rfl, hearlier, hlast⟩ := ih
      refine ⟨earlier, last ++ [c], List.append_assoc _ _ _, hearlier, ?_⟩
      simp [hlast, Ne.symm hc]

theorem Position.isAfter_iff {p : Position} : p.IsAfter w ↔ p = Position.after w := by
  constructor
  · rintro ⟨hline, earlier, last, rfl, hearlier, hlast, hcolumn⟩
    rw [after, takeWhile_reverse_append hearlier hlast, List.length_reverse, ← hline, ← hcolumn]
  · rintro rfl
    obtain ⟨earlier, last, rfl, hearlier, hlast⟩ := exists_last_line w
    refine ⟨rfl, earlier, last, rfl, hearlier, hlast, ?_⟩
    rw [after, takeWhile_reverse_append hearlier hlast, List.length_reverse]

namespace Grammar

variable {root : Option RootChoice}

/-- What cannot be parsed is malformed, after what stands before the mistake. -/
theorem compile_of_parse_eq_error {before : Word} (h : Description.parse (before ++ v) = .error v) :
    compile (before ++ v) root = .error (.malformed (.after before)) := by
  rw [compile, Definition.read, h]
  dsimp only
  rw [List.length_append, Nat.add_sub_cancel, List.take_left]

/-- A text is malformed if it spells no description, and the position that is reported is the one of
    its first mistake. -/
theorem compile_malformed (w : Word) (root : Option RootChoice) :
    ((∃ p, compile w root = .error (.malformed p)) ↔
      ∀ tokens d, Token.Spells false tokens w → ¬IsDescription tokens d) ∧
    ∀ p, compile w root = .error (.malformed p) ↔
      ∃ before v, w = before ++ v ∧ FirstMistake w v ∧ p.IsAfter before := by
  have hmistake {before v : Word} (h : FirstMistake (before ++ v) v) :
      compile (before ++ v) root = .error (.malformed (.after before)) :=
    compile_of_parse_eq_error (Description.parse_eq_error_iff.2 h)
  refine ⟨⟨fun ⟨_, h⟩ => (refused_of_compile h).1, fun h => ?_⟩, fun p => ⟨fun h => ?_, ?_⟩⟩
  · obtain ⟨before, v, rfl, hv⟩ := exists_firstMistake h
    exact ⟨_, hmistake hv⟩
  · obtain ⟨before, v, rfl, hv⟩ := exists_firstMistake (refused_of_compile h).1
    cases h.symm.trans (hmistake hv)
    exact ⟨before, v, rfl, hv, Position.isAfter_iff.2 rfl⟩
  · rintro ⟨before, v, rfl, hv, hp⟩
    rw [Position.isAfter_iff.1 hp]
    exact hmistake hv

/-- The semicolon is missing, and the last token is on the third line. -/
example : compile "a ::= 'x\n' // y\n  ('z')?".toList none = .error (.malformed ⟨3, 8⟩) := rfl

end Grammar

end Descent
