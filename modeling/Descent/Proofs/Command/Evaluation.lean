import Descent.Command
import Descent.Proofs.Sums.Composition
import Descent.Proofs.Sums.Runs

/-!
# What the command does with a sum

A text either spells a sum or is refused (`Sums.read_ok_or_refused`), as every parse tree gives an
expression. So the command, unless it is asked to be verbose, ends with an exit code for every text
that it evaluates: in the first case it shows the value after the text, in the second one it
complains (`Command.evaluate_quiet_of_read`, `Command.evaluate_of_refused`). Where the command runs
only matters for which texts are too deep.

The text may be an argument behind a separator, where it may look like an option, or be typed in.
That makes no difference but for what asks for it (`Command.run_typed`).
-/

namespace Descent

namespace Sums

/-- A text spells an expression, or is refused. -/
theorem read_ok_or_refused (limit : Nat) (t : Text) :
    (∃ e, read limit t = .ok e) ∨ ∃ r, read limit t = .error (.refused r) := by
  cases hparse : parse limit t with
  | ok tree =>
    obtain ⟨e, -, htree⟩ := ofTree_of_parse hparse
    exact .inl ⟨e, read_of_parse hparse htree⟩
  | error r => exact .inr ⟨r, by rw [read, hparse]⟩

/-- The value of what is read is the sum of the digit runs. -/
theorem total_of_read {limit : Nat} {t : Text} {e : Expression Empty} (h : read limit t = .ok e) :
    e.total = (runValues t.toList).sum := by
  obtain ⟨tree, hparse, -⟩ := exists_parse_of_read h
  obtain ⟨-, hvalue⟩ := evaluate_eq_sum_runs (isOk_iff.2 ⟨tree, hparse⟩)
  rw [evaluate, h] at hvalue
  exact Except.ok.inj hvalue

end Sums

namespace Command

variable {setting : Setting} {verbose : Bool} {shown w : Word} {e : Expression Empty} {r : Refusal}

/-! ## Outcomes -/

theorem render_complaint (text : Word) : (Diagnostic.complaint text).render = text ++ ['\n'] := rfl

theorem errors_complaint (ending : Except Breakdown Nat) (output text : Word) :
    Outcome.errors ⟨ending, output, [.complaint text]⟩ = text ++ ['\n'] := by
  rw [Outcome.errors, List.flatMap_singleton, render_complaint]

/-- What happens with a text that spells an expression. -/
theorem evaluate_of_parse {tree : Tree} (verbose : Bool) (shown : Word)
    (hparse : Sums.parse setting.rules w.toArray = .ok tree)
    (htree : Expression.ofTree tree = .ok e) :
    evaluate setting verbose shown w =
      if verbose ∧ setting.nodes < tree.height then ⟨.error .nesting, shown ++ w ++ ['\n'], []⟩
      else if verbose ∧ setting.sums < e.depth then
        ⟨.error .nesting, shown ++ w ++ ['\n'], [noteTree tree]⟩
      else
        ⟨.ok 0, shown ++ w ++ ['\n'] ++ "value ".toList ++ Numeral.write e.total ++ ['\n'],
          if verbose then [noteTree tree, noteExpression e] else []⟩ := by
  rw [evaluate, hparse]
  dsimp only
  rw [htree]

/-- What happens with a text that is refused. -/
theorem evaluate_of_refused (verbose : Bool) (shown : Word)
    (h : Sums.read setting.rules w.toArray = .error (.refused r)) :
    evaluate setting verbose shown w = ⟨.ok 1, shown ++ w ++ ['\n'],
      (if verbose then noteRefusal w r else []) ++
        [.complaint ("error: ".toList ++ r.message)]⟩ := by
  rw [evaluate, Sums.parse_of_refused h]

/-- Without notes, an expression that is read is evaluated, however it is nested. -/
theorem evaluate_quiet_of_read (shown : Word)
    (h : Sums.read setting.rules w.toArray = .ok e) :
    evaluate setting false shown w =
      ⟨.ok 0, shown ++ w ++ ['\n'] ++ "value ".toList ++ Numeral.write e.total ++ ['\n'], []⟩ := by
  obtain ⟨tree, hparse, htree⟩ := Sums.exists_parse_of_read h
  have hquiet (p : Prop) : ¬(false = true ∧ p) := fun h => Bool.false_ne_true h.1
  rw [evaluate_of_parse false shown hparse htree, if_neg (hquiet _), if_neg (hquiet _)]
  rfl

/-- What is shown before is kept, and makes no difference else. -/
theorem evaluate_quiet_shown (setting : Setting) (shown w : Word) :
    evaluate setting false shown w =
      { evaluate setting false [] w with
        output := shown ++ (evaluate setting false [] w).output } := by
  obtain ⟨e, h⟩ | ⟨r, h⟩ := Sums.read_ok_or_refused setting.rules w.toArray
  · simp only [evaluate_quiet_of_read _ h, List.nil_append, List.append_assoc]
  · simp only [evaluate_of_refused _ _ h, List.nil_append, List.append_assoc]

/-! ## Two ways in -/

/-- A line that is typed in is evaluated after the prompt. -/
theorem run_nil (setting : Setting) {s : Word} (hs : '\n' ∉ s) (later : Word) :
    run setting [] (s ++ '\n' :: later) = evaluate setting false prompt s := by
  have hline : (s ++ '\n' :: later).takeWhile (· ≠ '\n') = s := by
    rw [List.takeWhile_append_of_pos fun c hc => decide_eq_true (ne_of_mem_of_not_mem hc hs),
      List.takeWhile_cons_of_neg (by decide), List.append_nil]
  have hinput : (s ++ '\n' :: later).isEmpty = false := by
    rw [List.isEmpty_eq_false_iff]
    exact List.append_ne_nil_of_right_ne_nil s (List.cons_ne_nil _ _)
  change ask setting false _ = _
  rw [ask, hinput, hline]
  rfl

/-- Wherever the command runs, a text behind a separator and the same one typed in give the same
    exit code and the same errors, and the same output but for the prompt. A text that spells a sum
    is shown with its value, which is the sum of its digit runs, and one that is refused with the
    complaint. There is no other outcome. -/
theorem run_typed (setting : Setting) (s later unused : Word) (hs : '\n' ∉ s) :
    let direct := run setting [['-', '-'], s] unused
    let typed := run setting [] (s ++ '\n' :: later)
    (typed.ending = direct.ending ∧ typed.errors = direct.errors ∧
      typed.output = prompt ++ direct.output) ∧
    (∀ e, Sums.read setting.rules s.toArray = .ok e →
      direct.ending = .ok 0 ∧ direct.errors = [] ∧ direct.output =
        s ++ ['\n'] ++ "value ".toList ++ Nat.toDigits 10 (Sums.runValues s).sum ++ ['\n']) ∧
    (∀ r, Sums.read setting.rules s.toArray = .error (.refused r) →
      direct.ending = .ok 1 ∧ direct.errors = "error: ".toList ++ r.message ++ ['\n'] ∧
        direct.output = s ++ ['\n']) ∧
    ((∃ e, Sums.read setting.rules s.toArray = .ok e) ∨
      ∃ r, Sums.read setting.rules s.toArray = .error (.refused r)) := by
  intro direct typed
  have hdirect : direct = evaluate setting false [] s := rfl
  have htyped : typed = evaluate setting false prompt s := run_nil setting hs later
  refine ⟨?_, fun e h => ?_, fun r h => ?_, Sums.read_ok_or_refused _ _⟩
  · rw [htyped, hdirect, evaluate_quiet_shown setting prompt]
    exact ⟨rfl, rfl, rfl⟩
  · rw [hdirect, evaluate_quiet_of_read [] h, Numeral.write_eq, Sums.total_of_read h]
    exact ⟨rfl, rfl, by rw [List.nil_append]⟩
  · rw [hdirect, evaluate_of_refused false [] h]
    refine ⟨rfl, ?_, rfl⟩
    rw [if_neg Bool.false_ne_true, List.nil_append]
    exact errors_complaint _ _ _

/-- The texts `-v`, which is refused, and `(1)+2`, which has the value `3`, give the same either
    way. -/
theorem run_typed_option :
    let setting : Setting := ⟨10, 10, 10, .lenient⟩
    let s := "-v".toList
    let s' := "(1)+2".toList
    '\n' ∉ s ∧ (run setting [['-', '-'], s] []).ending = .ok 1 ∧
    (run setting [] (s ++ ['\n'])).ending = .ok 1 ∧
    (run setting [] (s ++ ['\n'])).output = prompt ++ "-v\n".toList ∧
    '\n' ∉ s' ∧ (run setting [['-', '-'], s'] []).ending = .ok 0 ∧
    (run setting [] (s' ++ ['\n'])).output = prompt ++ "(1)+2\nvalue 3\n".toList := by
  intro setting s s'
  have hs : '\n' ∉ s := by decide
  have hs' : '\n' ∉ s' := by decide
  have hparse : ¬(Sums.parse setting.rules s.toArray).isOk := by decide +kernel
  have hparse' : (Sums.parse setting.rules s'.toArray).isOk := by decide +kernel
  obtain ⟨⟨hending, -, houtput⟩, -, hrefused, hread⟩ := run_typed setting s [] [] hs
  obtain ⟨⟨-, -, houtput'⟩, hok, -, hread'⟩ := run_typed setting s' [] [] hs'
  obtain ⟨r, hr⟩ := hread.resolve_left fun ⟨e, he⟩ => by
    obtain ⟨tree, htree, -⟩ := Sums.exists_parse_of_read he
    exact hparse (isOk_iff.2 ⟨tree, htree⟩)
  obtain ⟨e, he⟩ := hread'.resolve_right fun ⟨r, hr⟩ =>
    ne_error_of_isOk hparse' r (Sums.parse_of_refused hr)
  obtain ⟨hone, -, hshown⟩ := hrefused r hr
  obtain ⟨hzero, -, hvalue⟩ := hok e he
  refine ⟨hs, hone, hending.trans hone, ?_, hs', hzero, ?_⟩
  · rw [houtput, hshown]
    rfl
  · rw [houtput', hvalue]
    decide +kernel

end Command

end Descent
