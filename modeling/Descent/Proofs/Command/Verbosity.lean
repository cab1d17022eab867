import Descent.Proofs.Command.Evaluation
import Descent.Proofs.Sums.Nesting

/-!
# What it takes to be verbose

The option to be verbose in front of other arguments changes nothing else in what they ask for
(`Request.ofArguments_verbose`). If it is asked for anyway, it changes nothing at all. Otherwise, it
only brings notes on the side (`Command.AddsNotes`), as long as the parse tree of the text that is
evaluated and the sums in it are not nested too deeply to be noted.

If they are (`Command.TooNested`), the command breaks down when it comes to note them, although the
value could be found (`Command.BreaksDown`). Wherever it runs, a sum of many numbers in a row is
enough for that, as they are added from left to right (`Command.tooNested_ones`,
`Command.run_verbose_ones`).
-/

namespace Descent

namespace Request

/-- The request, and to be verbose. -/
def verbosely : (request : Request) → Request
  | .help => .help
  | .evaluate _ expression => .evaluate true expression

/-- To be verbose, if it is known from the beginning, changes nothing else in what is asked for. -/
theorem take_verbose (clustering : Clustering) (p : Progress) (arguments : List Argument) :
    take clustering { p with verbose := true } arguments =
      (take clustering p arguments).map verbosely := by
  fun_induction take clustering p arguments with
  | case1 p hextras =>
    rw [take, if_pos hextras]
    rfl
  | case2 p hextras =>
    rw [take, if_neg hextras]
    rfl
  | case3 p w arguments hnone ih =>
    simp only [take, hnone]
    exact ih
  | case4 p w arguments hseparator hnone ih =>
    rw [take]
    · exact ih
    · exact hnone
    · exact hseparator
  | case5 p w given arguments hsome ih =>
    simp only [take, hsome]
    simpa only [hsome] using ih
  | case6 p arguments hnone ih =>
    simp only [take, hnone]
    simpa only [hnone] using ih
  | case7 p arguments given hsome ih =>
    simp only [take, hsome]
    simpa only [hsome] using ih
  | case8 => rfl
  | case9 p arguments ih =>
    rw [take]
    exact ih
  | case10 => rfl
  | case11 p flag letters arguments e he =>
    rw [take, he]
    rfl
  | case12 p flag letters arguments flags extra hoptions hhelp =>
    rw [take, hoptions]
    dsimp only
    rw [if_pos hhelp]
    rfl
  | case13 p flag letters arguments flags extra hoptions hhelp ih =>
    rw [take, hoptions]
    dsimp only
    rw [if_neg hhelp]
    exact ih
  | case14 p w arguments ih =>
    rw [take]
    exact ih

/-- To be verbose, if it is asked for first, changes nothing else in what is asked for. -/
theorem ofArguments_verbose (clustering : Clustering) (ws : List Word) :
    ofArguments clustering (['-', 'v'] :: ws) = (ofArguments clustering ws).map verbosely := by
  have hclassify : Argument.classifyAll (['-', 'v'] :: ws) =
      (Argument.classifyAll ws).map (.short .verbose [] :: ·) := by
    rw [Argument.classifyAll, if_neg (by decide)]
    cases Argument.classifyAll ws <;> rfl
  have hoptions : options clustering .verbose [] = .ok ([.verbose], none) := by
    cases clustering <;> rfl
  rw [ofArguments, ofArguments, hclassify]
  cases Argument.classifyAll ws with
  | error e => rfl
  | ok arguments =>
    change take clustering ⟨false, none, []⟩ (.short .verbose [] :: arguments) = _
    rw [take, hoptions]
    exact take_verbose clustering ⟨false, none, []⟩ arguments

end Request

namespace Command

/-! ## Notes -/

/-- The message is a note. -/
def Diagnostic.isDebug : (d : Diagnostic) → Bool
  | .debug _ _ => true
  | .complaint _ => false

/-- The outcomes agree but for notes in the first one. -/
structure AddsNotes (verbose plain : Outcome) : Prop where
  /-- They end in the same way. -/
  ending_eq : verbose.ending = plain.ending
  /-- They show the same. -/
  output_eq : verbose.output = plain.output
  /-- The messages are the same, if notes are left out, and there are none in the second one. -/
  diagnostics_eq : verbose.diagnostics.filter (!·.isDebug) = plain.diagnostics

/-- The first outcome breaks down with notes only before the value is shown, and the second one
    shows it. -/
structure BreaksDown (verbose plain : Outcome) : Prop where
  /-- The first one ends with the breakdown. -/
  ending_verbose : verbose.ending = .error .nesting
  /-- The second one ends well. -/
  ending_plain : plain.ending = .ok 0
  /-- In the first one, the value is missing. -/
  output_eq : ∃ n, plain.output = verbose.output ++ "value ".toList ++ Numeral.write n ++ ['\n']
  /-- In the first one, there are notes only. -/
  isDebug_of_mem : ∀ d ∈ verbose.diagnostics, d.isDebug
  /-- In the second one, there are no messages. -/
  diagnostics_eq : plain.diagnostics = []

/-- The text spells an expression, but its parse tree or the sums in it are nested too deeply to be
    noted. -/
def TooNested (setting : Setting) (w : Word) : Prop :=
  ∃ (tree : Tree) (e : Expression Empty), Sums.parse setting.rules w.toArray = .ok tree ∧
    Expression.ofTree tree = .ok e ∧ (setting.nodes < tree.height ∨ setting.sums < e.depth)

variable {setting : Setting} {w : Word}

/-- What is too deep to be noted is too many parentheses that are open at once, or too many sums
    within one another. -/
theorem tooNested_iff {e : Expression Empty} (h : Sums.read setting.rules w.toArray = .ok e) :
    TooNested setting w ↔
      setting.nodes < 2 * Sums.nesting w + 4 ∨ setting.sums < e.depth := by
  obtain ⟨tree, hparse, htree⟩ := Sums.exists_parse_of_read h
  rw [← show tree.height = 2 * Sums.nesting w + 4 from Sums.height_eq_of_parse hparse]
  constructor
  · rintro ⟨tree', e', hparse', htree', hdeep⟩
    cases hparse.symm.trans hparse'
    cases htree.symm.trans htree'
    exact hdeep
  · exact fun hdeep => ⟨tree, e, hparse, htree, hdeep⟩

theorem isDebug_of_mem_noteRefusal {r : Refusal} : ∀ d ∈ noteRefusal w r, d.isDebug := by
  cases r with
  | unmatched => exact fun d hd => List.mem_singleton.1 hd ▸ rfl
  | halted => exact fun d hd => absurd hd List.not_mem_nil

theorem filter_noteRefusal (w : Word) (r : Refusal) :
    (noteRefusal w r).filter (!·.isDebug) = [] :=
  List.filter_eq_nil_iff.2 fun d hd => by rw [isDebug_of_mem_noteRefusal d hd]; decide

/-- Notes are all that comes with being verbose, unless something is nested too deeply. -/
theorem addsNotes_evaluate (shown : Word) (h : ¬TooNested setting w) :
    AddsNotes (evaluate setting true shown w) (evaluate setting false shown w) := by
  obtain ⟨e, he⟩ | ⟨r, hr⟩ := Sums.read_ok_or_refused setting.rules w.toArray
  · obtain ⟨tree, hparse, htree⟩ := Sums.exists_parse_of_read he
    have hnodes : ¬(true = true ∧ setting.nodes < tree.height) := fun hlt =>
      h ⟨tree, e, hparse, htree, .inl hlt.2⟩
    have hsums : ¬(true = true ∧ setting.sums < e.depth) := fun hlt =>
      h ⟨tree, e, hparse, htree, .inr hlt.2⟩
    rw [evaluate_quiet_of_read shown he, evaluate_of_parse true shown hparse htree, if_neg hnodes,
      if_neg hsums]
    exact ⟨rfl, rfl, rfl⟩
  · rw [evaluate_of_refused true shown hr, evaluate_of_refused false shown hr]
    refine ⟨rfl, rfl, ?_⟩
    rw [if_pos rfl, if_neg Bool.false_ne_true, List.filter_append, filter_noteRefusal]
    rfl

/-- If something is nested too deeply, to be verbose leads to a breakdown. -/
theorem breaksDown_evaluate (shown : Word) (h : TooNested setting w) :
    BreaksDown (evaluate setting true shown w) (evaluate setting false shown w) := by
  obtain ⟨tree, e, hparse, htree, hdeep⟩ := h
  have he := Sums.read_of_parse hparse htree
  rw [evaluate_quiet_of_read shown he, evaluate_of_parse true shown hparse htree]
  -- The tree is noted first, and so may be missing among the notes.
  by_cases hnodes : setting.nodes < tree.height
  · rw [if_pos ⟨rfl, hnodes⟩]
    exact ⟨rfl, rfl, ⟨e.total, rfl⟩, fun d hd => absurd hd List.not_mem_nil, rfl⟩
  · rw [if_neg fun hlt => hnodes hlt.2, if_pos ⟨rfl, hdeep.resolve_left hnodes⟩]
    exact ⟨rfl, rfl, ⟨e.total, rfl⟩, fun d hd => List.mem_singleton.1 hd ▸ rfl, rfl⟩

/-! ## Runs -/

/-- To be verbose is asked for. -/
def AsksVerbose (clustering : Clustering) (ws : List Word) : Prop :=
  ∃ expression, Request.ofArguments clustering ws = .ok (.evaluate true expression)

theorem not_asksVerbose {clustering : Clustering} {ws : List Word} {expression : Option Word}
    (h : Request.ofArguments clustering ws = .ok (.evaluate false expression)) :
    ¬AsksVerbose clustering ws := by
  rintro ⟨expression', hasked⟩
  cases h.symm.trans hasked

/-- The text that is evaluated: the argument, or else the line that is typed in. -/
def evaluated (clustering : Clustering) (ws : List Word) (input : Word) : Option Word :=
  match Request.ofArguments clustering ws with
  | .ok (.evaluate _ (some w)) => some w
  | .ok (.evaluate _ none) => if input.isEmpty then none else some (input.takeWhile (· ≠ '\n'))
  | .ok .help | .error _ => none

/-- To ask for it twice to be verbose changes nothing. -/
theorem run_verbose_of_asked {ws : List Word} (input : Word)
    (h : AsksVerbose setting.clustering ws) :
    run setting (['-', 'v'] :: ws) input = run setting ws input := by
  obtain ⟨expression, hrequest⟩ := h
  rw [run, run, Request.ofArguments_verbose, hrequest]
  rfl

/-- If no text is evaluated, to be verbose changes nothing, and there are no notes. -/
theorem run_of_evaluated_none {ws : List Word} {input : Word}
    (h : evaluated setting.clustering ws input = none) :
    run setting (['-', 'v'] :: ws) input = run setting ws input ∧
      (run setting ws input).diagnostics.filter (!·.isDebug) =
        (run setting ws input).diagnostics := by
  rw [evaluated] at h
  rw [run, run, Request.ofArguments_verbose]
  cases hrequest : Request.ofArguments setting.clustering ws with
  | error e => exact ⟨rfl, rfl⟩
  | ok request =>
    rw [hrequest] at h
    cases request with
    | help => exact ⟨rfl, rfl⟩
    | evaluate asked expression =>
      cases expression with
      | some w => cases h
      | none =>
        by_cases hinput : input.isEmpty = true
        · change ask setting true input = ask setting asked input ∧
            (ask setting asked input).diagnostics.filter (!·.isDebug) =
              (ask setting asked input).diagnostics
          rw [ask, ask, if_pos hinput, if_pos hinput]
          exact ⟨rfl, rfl⟩
        · change (if input.isEmpty then none else some _) = none at h
          rw [if_neg hinput] at h
          cases h

/-- The text that is evaluated is so after the same is shown, whether verbose or not. -/
theorem run_of_evaluated {ws : List Word} {input : Word}
    (h : evaluated setting.clustering ws input = some w)
    (hnot : ¬AsksVerbose setting.clustering ws) :
    ∃ shown, run setting (['-', 'v'] :: ws) input = evaluate setting true shown w ∧
      run setting ws input = evaluate setting false shown w := by
  rw [evaluated] at h
  rw [run, run, Request.ofArguments_verbose]
  cases hrequest : Request.ofArguments setting.clustering ws with
  | error e =>
    rw [hrequest] at h
    cases h
  | ok request =>
    rw [hrequest] at h
    cases request with
    | help => cases h
    | evaluate asked expression =>
      cases asked with
      | true => exact absurd ⟨expression, hrequest⟩ hnot
      | false =>
        cases expression with
        | some v =>
          cases h
          exact ⟨[], rfl, rfl⟩
        | none =>
          change (if input.isEmpty then none else some _) = some w at h
          by_cases hinput : input.isEmpty = true
          · rw [if_pos hinput] at h
            cases h
          · rw [if_neg hinput] at h
            cases h
            exact ⟨prompt, if_neg hinput, if_neg hinput⟩

/-- Wherever the command runs, to ask for it twice to be verbose changes nothing. To ask for it once
    only brings notes, if the text that is evaluated can be noted, and otherwise leads to a
    breakdown. -/
theorem run_verbose (setting : Setting) (ws : List Word) (input : Word) :
    let verbose := run setting (['-', 'v'] :: ws) input
    let plain := run setting ws input
    (AsksVerbose setting.clustering ws → verbose = plain) ∧
    (¬AsksVerbose setting.clustering ws →
      ((∀ w ∈ evaluated setting.clustering ws input, ¬TooNested setting w) →
        AddsNotes verbose plain) ∧
      ∀ w ∈ evaluated setting.clustering ws input, TooNested setting w →
        BreaksDown verbose plain) := by
  intro verbose plain
  refine ⟨run_verbose_of_asked input, fun hnot => ⟨fun h => ?_, fun w hw h => ?_⟩⟩
  · cases hevaluated : evaluated setting.clustering ws input with
    | none =>
      obtain ⟨heq, hnotes⟩ := run_of_evaluated_none hevaluated
      exact ⟨congrArg Outcome.ending heq, congrArg Outcome.output heq,
        (congrArg (·.diagnostics.filter (!·.isDebug)) heq).trans hnotes⟩
    | some w =>
      obtain ⟨shown, hverbose, hplain⟩ := run_of_evaluated hevaluated hnot
      rw [show verbose = _ from hverbose, show plain = _ from hplain]
      exact addsNotes_evaluate shown (h w hevaluated)
  · obtain ⟨shown, hverbose, hplain⟩ := run_of_evaluated hw hnot
    rw [show verbose = _ from hverbose, show plain = _ from hplain]
    exact breaksDown_evaluate shown h

/-! ## Ones in a row -/

/-- So many times `+1`. -/
def plusOnes : (n : Nat) → Word
  | 0 => []
  | n + 1 => plusOnes n ++ ['+', '1']

/-- The sum of so many times one and another one. -/
def sumOfOnes : (n : Nat) → Expression Empty
  | 0 => .number 1
  | n + 1 => .plus (sumOfOnes n) (.number 1)

theorem depth_sumOfOnes (n : Nat) : (sumOfOnes n).depth = n := by
  induction n with
  | zero => rfl
  | succ n ih => rw [sumOfOnes, Expression.depth, ih, Expression.depth, Nat.max_zero]

theorem total_sumOfOnes (n : Nat) : (sumOfOnes n).total = n + 1 := by
  induction n with
  | zero => rw [sumOfOnes, Expression.total_eq_sum_numbers]; rfl
  | succ n ih => rw [sumOfOnes, Expression.total_plus, ih, Expression.total_eq_sum_numbers]; rfl

/-- The operands are added from left to right, so every one brings the sum deeper. -/
theorem sumWithin_ones (n : Nat) : Sums.SumWithin 0 (sumOfOnes n) ('1' :: plusOnes n) := by
  have hlex : Sums.lex ['1'] = some [.number ['1']] := by simp [Sums.lex, Sums.isBlank]
  have hbalanced : Sums.Balanced 0 ['1'] := .of_forall (by simp) (Int.le_refl _)
  induction n with
  | zero => exact ⟨⟨_, hlex, (Sums.IsOperand.number ['1']).isSum⟩, hbalanced⟩
  | succ n ih => exact ih.plus ⟨⟨_, hlex, (Sums.IsOperand.number ['1']).isRest⟩, hbalanced⟩

/-- Four rules within one another are enough, however many ones there are. -/
theorem read_ones {limit : Nat} (hlimit : 4 ≤ limit) (n : Nat) :
    Sums.read limit ('1' :: plusOnes n).toArray = .ok (sumOfOnes n) := by
  have hreads : Sums.ReadsAs ('1' :: plusOnes n).toArray (sumOfOnes n) 4 :=
    Sums.SumWithin.readsAs (sumWithin_ones n) (Nat.le_refl 4)
  exact (hreads limit).resolve_left fun h => Nat.not_lt.2 hlimit h.2

/-- Wherever sums can be read, there is one that is nested too deeply to be noted. -/
theorem tooNested_ones {n : Nat} (hrules : 4 ≤ setting.rules) (h : setting.sums < n) :
    TooNested setting ('1' :: plusOnes n) :=
  (tooNested_iff (read_ones hrules n)).2 (.inr (by rwa [depth_sumOfOnes]))

theorem ofArguments_digit (clustering : Clustering) (w : Word) :
    Request.ofArguments clustering ['1' :: w] = .ok (.evaluate false (some ('1' :: w))) := by
  rfl

/-- The sum of `493` ones has a value, but to be verbose leads to a breakdown before it is shown,
    where no more than `490` sums can be nested within one another to be noted. -/
theorem run_verbose_ones :
    let setting : Setting := ⟨332, 246, 490, .lenient⟩
    let s := '1' :: plusOnes 492
    let verbose := run setting [['-', 'v'], s] []
    let plain := run setting [s] []
    ¬AsksVerbose setting.clustering [s] ∧ plain.ending = .ok 0 ∧
    plain.output = s ++ "\nvalue 493\n".toList ∧
    verbose.ending = .error .nesting ∧ verbose.ending ≠ plain.ending ∧
    verbose.output ≠ plain.output := by
  intro setting s verbose plain
  have hrules : 4 ≤ setting.rules := by decide
  have hrequest : Request.ofArguments setting.clustering [s] = .ok (.evaluate false (some s)) :=
    ofArguments_digit _ _
  have hplain : plain = evaluate setting false [] s := by
    change run setting [s] [] = _
    rw [run, hrequest]
  have hverbose : verbose = evaluate setting true [] s := by
    change run setting [['-', 'v'], s] [] = _
    rw [run, Request.ofArguments_verbose, hrequest]
    rfl
  have hbreaks := breaksDown_evaluate [] (tooNested_ones (n := 492) hrules (by decide))
  rw [← hverbose, ← hplain] at hbreaks
  obtain ⟨n, houtput⟩ := hbreaks.output_eq
  refine ⟨not_asksVerbose hrequest, hbreaks.ending_plain, ?_, hbreaks.ending_verbose, ?_, ?_⟩
  · rw [hplain, evaluate_quiet_of_read [] (read_ones hrules 492), total_sumOfOnes]
    simp only [List.nil_append, List.append_assoc, s]
    rw [List.append_right_inj, Numeral.write_eq]
    decide
  · rw [hbreaks.ending_verbose, hbreaks.ending_plain]
    exact fun heq => by cases heq
  · rw [houtput, List.append_assoc, List.append_assoc]
    exact fun heq =>
      List.append_ne_nil_of_left_ne_nil (by decide) _ (List.self_eq_append_right.1 heq)

/-- For the sum `1+1`, to be verbose brings notes only, and changes nothing the second time; for a
    sum of ones with more plus signs than can be nested, it leads to a breakdown. -/
theorem run_verbose_two :
    let setting : Setting := ⟨40, 20, 30, .strict⟩
    let two := ['1' :: plusOnes 1]
    let many := ['1' :: plusOnes 31]
    (¬AsksVerbose setting.clustering two ∧
      (∀ w ∈ evaluated setting.clustering two [], ¬TooNested setting w) ∧
      AddsNotes (run setting (['-', 'v'] :: two) []) (run setting two [])) ∧
    (AsksVerbose setting.clustering (['-', 'v'] :: two) ∧
      run setting (['-', 'v'] :: ['-', 'v'] :: two) [] = run setting (['-', 'v'] :: two) []) ∧
    ¬AsksVerbose setting.clustering many ∧
      (∀ w ∈ evaluated setting.clustering many [], TooNested setting w) ∧
      BreaksDown (run setting (['-', 'v'] :: many) []) (run setting many []) := by
  intro setting two many
  have hrules : 4 ≤ setting.rules := by decide
  have hquiet (w : Word) : ¬AsksVerbose setting.clustering ['1' :: w] :=
    not_asksVerbose (ofArguments_digit _ w)
  have htwo : ∀ w ∈ evaluated setting.clustering two [], ¬TooNested setting w := fun w hw => by
    obtain rfl := Option.some.inj hw
    rw [tooNested_iff (read_ones hrules 1), depth_sumOfOnes]
    decide
  have hmany : ∀ w ∈ evaluated setting.clustering many [], TooNested setting w := fun w hw => by
    cases hw
    exact tooNested_ones hrules (by decide)
  have hagain : AsksVerbose setting.clustering (['-', 'v'] :: two) :=
    ⟨some ('1' :: plusOnes 1), rfl⟩
  obtain ⟨-, honce⟩ := run_verbose setting two []
  obtain ⟨-, hmuch⟩ := run_verbose setting many []
  refine ⟨⟨hquiet _, htwo, (honce (hquiet _)).1 htwo⟩,
    ⟨hagain, (run_verbose setting (['-', 'v'] :: two) []).1 hagain⟩, hquiet _, hmany, ?_⟩
  exact (hmuch (hquiet _)).2 _ rfl (tooNested_ones hrules (by decide))

end Command

end Descent
