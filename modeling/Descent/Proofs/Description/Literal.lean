import Descent.Grammar.Compile
import Descent.Proofs.Description.Escape
import Descent.Proofs.Description.Reader
import Descent.Proofs.Rest

/-!
# Literals

What stands between the quotes of a literal is a word that is written there character by character,
and nothing else (`Token.enclosed_iff_written`). A description whose only rule is a literal gives a
grammar that parses this word and no other text, however the word is written
(`Grammar.parse_written`), and there is one for every word (`Grammar.exists_parse_word`).
-/

namespace Descent

variable {quote : Char} {s w name body : Word} {pieces : List Word}

/-! ## Between delimiters -/

/-- What may stand between two delimiters is a word that is written there, but for line breaks with
    a backslash. -/
theorem Token.enclosed_iff_written {delimiter : Char} :
    Enclosed delimiter body ↔ ∃ s pieces, List.Forall₂ (Writes delimiter) s pieces ∧
      ['\\', '\n'] ∉ pieces ∧ body = pieces.flatten := by
  constructor
  · intro h
    induction h with
    | nil => exact ⟨[], [], .nil, List.not_mem_nil, rfl⟩
    | @plain c body hc hslash _ ih =>
      obtain ⟨s, pieces, hpieces, hline, rfl⟩ := ih
      exact ⟨c :: s, [c] :: pieces, .cons (.plain hc hslash) hpieces, by simp [hline], rfl⟩
    | @escaped c body hc _ ih =>
      obtain ⟨s, pieces, hpieces, hline, rfl⟩ := ih
      exact ⟨unescaped c :: s, ['\\', c] :: pieces, .cons (writes_unescaped delimiter c) hpieces,
        by simp [hline, hc.symm], rfl⟩
  · rintro ⟨s, pieces, h, hline, rfl⟩
    induction h with
    | nil => exact .nil
    | @cons c piece s pieces h _ ih =>
      rw [List.mem_cons, not_or] at hline
      have hrest := ih hline.2
      rw [List.flatten_cons]
      cases h with
      | plain hquote hslash => exact .plain hquote hslash hrest
      | backslashed => exact .escaped (fun h => hline.1 (h ▸ rfl)) hrest
      | lineBreak | tab | carriageReturn => exact .escaped (by decide) hrest

/-- Every word can be written between quotes, and without a backslash before a line break. -/
theorem exists_writes (hquote : quote = '\'' ∨ quote = '"') (s : Word) :
    ∃ pieces, List.Forall₂ (Writes quote) s pieces ∧ ['\\', '\n'] ∉ pieces := by
  induction s with
  | nil => exact ⟨[], .nil, List.not_mem_nil⟩
  | cons c s ih =>
    obtain ⟨pieces, hpieces, hline⟩ := ih
    by_cases hc : c = quote ∨ c = '\\'
    · have hbackslashed : Writes quote c ['\\', c] ∧ c ≠ '\n' := by
        obtain rfl | rfl := hc
        · obtain rfl | rfl := hquote <;>
            exact ⟨.backslashed (by decide) (by decide) (by decide), by decide⟩
        · exact ⟨.backslashed (by decide) (by decide) (by decide), by decide⟩
      exact ⟨_, .cons hbackslashed.1 hpieces, by simp [hline, hbackslashed.2.symm]⟩
    · rw [not_or] at hc
      exact ⟨[c] :: pieces, .cons (.plain hc.1 hc.2) hpieces, by simp [hline]⟩

/-! ## A literal as the only rule -/

namespace Grammar

/-- A grammar whose only rule is a literal parses nothing else. -/
theorem parse_literal (name s : Word) (limit : Nat) (t : Text) :
    (parse ⟨[(name, .literal s)], name⟩ (limit + 1) t).isOk ↔ t.toList = s := by
  rw [Text.toList_eq_iff, parse, Rules.enter, List.lookup_cons, BEq.rfl]
  dsimp only
  rw [Pattern.search, Nat.zero_add]
  cases t.holds s 0 with
  | false => exact iff_of_false Bool.false_ne_true fun h => Bool.false_ne_true h.1
  | true =>
    rw [if_pos rfl, Search.firstWhere, Search.single, Search.firstWhere, Match.empty_stop]
    by_cases hlength : s.length = t.size
    · rw [if_pos (decide_eq_true hlength)]
      exact iff_of_true rfl ⟨rfl, hlength⟩
    · rw [if_neg (mt of_decide_eq_true hlength)]
      exact iff_of_false Bool.false_ne_true fun h => hlength h.2

/-- A text that spells a rule with a literal gives the grammar of what the literal spells. -/
theorem compile_literal
    (hw : Token.Spells false [.name name, .defines, .literal body, .semicolon] w) :
    compile w none = .ok ⟨[(name, .literal ((unescape body).map (·.1)))], name⟩ := by
  have hparse : Description.parse w = .ok [.rule ⟨name, [[.literal body]]⟩] :=
    Description.parse_eq_ok_iff.2
      ⟨_, hw, .single (.rule (.mk name (.last (.last (.once (.literal body))))))⟩
  have hroot (p : Pattern) : Rules.root [(name, p)] (.rule name) = .ok name := by
    simp [Rules.root]
  rw [compile, Definition.read, hparse]
  change (Rules.root [(name, _)] (.rule name)).map _ = _
  rw [hroot]
  rfl

/-- The description of a single rule, which is a literal. -/
def literalRule (quote : Char) (body : Word) : Word :=
  "root ::= ".toList ++ quote :: body ++ [quote, ';']

theorem spells_literalRule (hliteral : Token.Spelled (.literal body) (quote :: body ++ [quote])) :
    Token.Spells false [.name ['r', 'o', 'o', 't'], .defines, .literal body, .semicolon]
      (literalRule quote body) := by
  have hblank : Token.Filler false [' '] := .blank rfl .nil
  have hroot : Token.Spelled (.name ['r', 'o', 'o', 't']) ['r', 'o', 'o', 't'] :=
    .name rfl (List.all_eq_true.1 rfl)
  have hdefines : Token.Spelled .defines [':', ':', '='] := .fixed rfl
  have hsemicolon : Token.Spelled .semicolon [';'] := .fixed rfl
  have hspells : Token.Spells false _ _ := .cons .nil nofun hroot <|
    .cons hblank nofun hdefines <| .cons hblank nofun hliteral <|
    .cons .nil nofun hsemicolon (.nil .nil)
  unfold literalRule
  simpa using hspells

/-- However a word is written, the description with this literal as its only rule gives a grammar
    that parses the word and nothing else. -/
theorem parse_written (hquote : quote = '\'' ∨ quote = '"')
    (h : List.Forall₂ (Writes quote) s pieces) (hline : ['\\', '\n'] ∉ pieces) :
    ∃ g, compile (literalRule quote pieces.flatten) none = .ok g ∧
      ∀ limit t, (g.parse (limit + 1) t).isOk ↔ t.toList = s := by
  have hliteral : Token.Spelled (.literal pieces.flatten) (quote :: pieces.flatten ++ [quote]) :=
    .literal hquote (Token.enclosed_iff_written.2 ⟨s, pieces, h, hline, rfl⟩)
  refine ⟨_, compile_literal (spells_literalRule hliteral), fun limit t => ?_⟩
  rw [parse_literal, map_fst_unescape_written h]

/-- Every word has a description whose grammar parses the word and nothing else. -/
theorem exists_parse_word (s : Word) :
    ∃ w g, compile w none = .ok g ∧ ∀ limit t, (g.parse (limit + 1) t).isOk ↔ t.toList = s := by
  obtain ⟨pieces, h, hline⟩ := exists_writes (.inl rfl) s
  exact ⟨_, parse_written (.inl rfl) h hline⟩

end Grammar

end Descent
