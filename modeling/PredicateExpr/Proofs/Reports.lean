import Mathlib.Tactic.Common
import PredicateExpr.Proofs.Findings

/-!
# Reports entry by entry

A report is put together from entries, one for each expression, and no entry depends on another one
(`Report.ofTexts_append`). It counts the expressions that cannot be read
(`Report.failures_ofTexts`). To show the tokens, a text is cut into tokens once more, and this makes
no difference to anything else that is found out about it (`Finding.ofText_false`). What was found
out is what is written (`Report.output_of_ok`, `Report.output_of_error`).
`Report.ofTexts_agrees` has all of this together.
-/

namespace PredicateExpr

/-! ## Reports one after another -/

namespace Report

/-- A report with no expression in front of it is the same report. -/
theorem empty_append (report : Report) : empty ++ report = report := by
  have hfailures : 0 + report.failures = report.failures := Nat.zero_add _
  have houtput : "" ++ report.output = report.output := String.empty_append
  exact congrArg₂ mk hfailures houtput

/-- A report with no expression behind it is the same report. -/
theorem append_empty (report : Report) : report ++ empty = report := by
  have houtput : report.output ++ "" = report.output := String.append_empty
  exact congrArg (mk report.failures) houtput

/-- Three reports one after another are the same report, however they are put together. -/
theorem append_assoc (first second third : Report) :
    first ++ second ++ third = first ++ (second ++ third) := by
  have hfailures := Nat.add_assoc first.failures second.failures third.failures
  have houtput : first.output ++ second.output ++ third.output =
      first.output ++ (second.output ++ third.output) := String.append_assoc
  exact congrArg₂ mk hfailures houtput

variable (values : Valuation) (withTokens : Bool)

/-- What is written after a report is the report on the expressions that remain. -/
theorem foldl_entry (report : Report) (texts : List String) :
    texts.foldl (fun report text => report ++ entry text (Finding.ofText values withTokens text))
      report = report ++ ofTexts values withTokens texts := by
  induction texts generalizing report with
  | nil => exact (append_empty report).symm
  | cons text texts ih =>
    have hall : ofTexts values withTokens (text :: texts) =
        empty ++ entry text (Finding.ofText values withTokens text) ++
          ofTexts values withTokens texts := ih _
    rw [List.foldl_cons, ih, hall, empty_append, append_assoc]

/-- The report on two lists of expressions is that on the first, and then that on the second. -/
theorem ofTexts_append (xs ys : List String) :
    ofTexts values withTokens (xs ++ ys) =
      ofTexts values withTokens xs ++ ofTexts values withTokens ys := by
  rw [ofTexts, List.foldl_append]
  exact foldl_entry values withTokens _ ys

/-- The report on a single expression is its entry. -/
theorem ofTexts_singleton (text : String) :
    ofTexts values withTokens [text] = entry text (Finding.ofText values withTokens text) :=
  empty_append _

variable {values withTokens} {text : String}

/-- What is written about an expression that can be read is what was found out about it: its tokens
if they are to be shown, its tree and its value. -/
theorem output_of_ok {finding : Finding} (h : Finding.ofText values withTokens text = .ok finding) :
    (ofTexts values withTokens [text]).output =
      text ++ "\n- - - -\n" ++ ((finding.tokens?.map Finding.tokenLine).getD "" ++
        s!"tree:   {finding.tree}\n" ++ s!"result: {Text.ofBool finding.value}\n") ++ "\n" := by
  rw [ofTexts_singleton, h]
  rfl

/-- What is written about an expression that cannot be read is why it cannot. -/
theorem output_of_error {e : CompileError} (h : Finding.ofText values withTokens text = .error e) :
    (ofTexts values withTokens [text]).output =
      text ++ "\n- - - -\n" ++ s!"error:  {e.reportMessage}\n" ++ "\n" := by
  rw [ofTexts_singleton, h]
  rfl

end Report

/-! ## Findings and reading -/

namespace Finding

/-- A finding shows the expression that the text is read as, and there is none where the text cannot
be read. -/
theorem map_tree_ofText (values : Valuation) (withTokens : Bool) (text : String) :
    (ofText values withTokens text).map tree =
      (Condition.parse (σ := Unit) text).map Condition.render := by
  rw [ofText_eq, Condition.parse]
  cases tokenize text with
  | error e => rfl
  | ok tokens =>
    rw [ok_bind, ok_bind]
    cases parse tokens with
    | error e => rfl
    | ok t =>
      have hrender : (Condition.ofTree (σ := Unit) t).render = t.render :=
        Tree.renderWith_map _ _ t
      exact congrArg Except.ok hrender.symm

/-- Without its tokens, a finding is the same. -/
theorem ofText_false (values : Valuation) (text : String) :
    ofText values false text =
      (ofText values true text).map fun finding => { finding with tokens? := none } := by
  rw [ofText_eq, ofText_eq]
  cases tokenize text with
  | error e => rfl
  | ok tokens =>
    rw [ok_bind, ok_bind]
    cases parse tokens <;> rfl

/-- The tokens of a finding are those that its expression was read from. -/
theorem parse_tokens_of_ofText {values : Valuation} {text : String} {finding : Finding}
    (h : ofText values true text = .ok finding) :
    ∃ tokens t, finding.tokens? = some tokens ∧ parse tokens = .ok t ∧ t.render = finding.tree := by
  rw [ofText_eq] at h
  obtain ⟨tokens, _, h⟩ := bind_eq_ok_iff.mp h
  obtain ⟨t, hparse, h⟩ := bind_eq_ok_iff.mp h
  cases h
  exact ⟨tokens, t, rfl, hparse, rfl⟩

end Finding

/-! ## Failures -/

namespace Report

/-- An entry counts as a failure when there is no finding. -/
theorem failures_entry (text : String) (outcome : Except CompileError Finding) :
    (entry text outcome).failures = if !outcome.isOk then 1 else 0 := by
  cases outcome <;> rfl

/-- A report counts the expressions that cannot be read. -/
theorem failures_ofTexts (values : Valuation) (withTokens : Bool) (texts : List String) :
    (ofTexts values withTokens texts).failures =
      texts.countP fun text => !(Condition.parse (σ := Unit) text).isOk := by
  induction texts with
  | nil => rfl
  | cons text texts ih =>
    have hsplit : (ofTexts values withTokens (text :: texts)).failures =
        (ofTexts values withTokens [text]).failures +
          (ofTexts values withTokens texts).failures :=
      congrArg failures (ofTexts_append values withTokens [text] texts)
    have hread := isOk_eq_of_map_eq (Finding.map_tree_ofText values withTokens text)
    rw [hsplit, ofTexts_singleton, failures_entry, hread, ih, List.countP_cons, Nat.add_comm]

/-- The report on two lists of expressions is the report on the first, and then that on the second,
with the failures of both. The failures are the expressions that cannot be read. What an entry shows
is what the expression is read as, or why it cannot be read, and does not depend on whether its
tokens are shown; those that are shown are the tokens of the expression. Behind its text, just this
is what is written about an expression. -/
theorem ofTexts_agrees (values : Valuation) :
    (∀ withTokens xs ys,
      (ofTexts values withTokens (xs ++ ys)).output =
        (ofTexts values withTokens xs).output ++ (ofTexts values withTokens ys).output ∧
      (ofTexts values withTokens (xs ++ ys)).failures =
        (ofTexts values withTokens xs).failures + (ofTexts values withTokens ys).failures) ∧
    (∀ withTokens texts, (ofTexts values withTokens texts).failures =
      texts.countP fun text => !(Condition.parse (σ := Unit) text).isOk) ∧
    (∀ withTokens text, (Finding.ofText values withTokens text).map Finding.tree =
      (Condition.parse (σ := Unit) text).map Condition.render) ∧
    (∀ text, Finding.ofText values false text =
      (Finding.ofText values true text).map fun finding => { finding with tokens? := none }) ∧
    (∀ text finding, Finding.ofText values true text = .ok finding →
      ∃ tokens t, finding.tokens? = some tokens ∧ parse tokens = .ok t ∧
        t.render = finding.tree) ∧
    (∀ withTokens text finding, Finding.ofText values withTokens text = .ok finding →
      (ofTexts values withTokens [text]).output =
        text ++ "\n- - - -\n" ++ ((finding.tokens?.map Finding.tokenLine).getD "" ++
          s!"tree:   {finding.tree}\n" ++ s!"result: {Text.ofBool finding.value}\n") ++ "\n") ∧
    ∀ withTokens text e, Finding.ofText values withTokens text = .error e →
      (ofTexts values withTokens [text]).output =
        text ++ "\n- - - -\n" ++ s!"error:  {e.reportMessage}\n" ++ "\n" := by
  refine ⟨?_, ?_, ?_, ?_, ?_, ?_, ?_⟩
  · intro withTokens xs ys
    rw [ofTexts_append]
    exact ⟨rfl, rfl⟩
  · intro withTokens texts
    exact failures_ofTexts values withTokens texts
  · intro withTokens text
    exact Finding.map_tree_ofText values withTokens text
  · intro text
    exact Finding.ofText_false values text
  · intro text finding h
    exact Finding.parse_tokens_of_ofText h
  · intro withTokens text finding h
    exact output_of_ok h
  · intro withTokens text e h
    exact output_of_error h

/-- A report on an expression that cannot be read and one that can. -/
theorem ofTexts_agrees_of_rejected :
    (ofTexts (Assignment.valuation [⟨"a", false⟩]) true (["a $"] ++ ["!a"])).output =
        (ofTexts (Assignment.valuation [⟨"a", false⟩]) true ["a $"]).output ++
          (ofTexts (Assignment.valuation [⟨"a", false⟩]) true ["!a"]).output ∧
      (ofTexts (Assignment.valuation [⟨"a", false⟩]) true (["a $"] ++ ["!a"])).failures = 1 ∧
      Finding.ofText (Assignment.valuation [⟨"a", false⟩]) true "!a" =
        .ok ⟨some [⟨.operator, "!", 0⟩, ⟨.word, "a", 1⟩], "[ NOT a() ]", true⟩ ∧
      (∃ tokens t, some [⟨.operator, "!", 0⟩, ⟨.word, "a", 1⟩] = some tokens ∧
        parse tokens = .ok t ∧ t.render = "[ NOT a() ]") ∧
      (ofTexts (Assignment.valuation [⟨"a", false⟩]) true ["a $"]).output =
        "a $\n- - - -\n" ++
          "error:  invalid expression: unrecognised input `$` at byte 2 (zero-based)\n\n" ∧
      (ofTexts (Assignment.valuation [⟨"a", false⟩]) true ["!a"]).output =
        "!a\n- - - -\n" ++
          "tokens: Operator:\"!\"@0 Word:\"a\"@1\ntree:   [ NOT a() ]\nresult: true\n\n" := by
  have htokens : tokenize "!a" = .ok [⟨.operator, "!", 0⟩, ⟨.word, "a", 1⟩] := by decide +kernel
  have hfinding : Finding.ofText (Assignment.valuation [⟨"a", false⟩]) true "!a" =
      .ok ⟨some [⟨.operator, "!", 0⟩, ⟨.word, "a", 1⟩], "[ NOT a() ]", true⟩ := by
    rw [Finding.ofText_eq, htokens]
    rfl
  have hstop : tokenize "a $" = .error (.unrecognised "$" 2) := by decide +kernel
  have herror : Finding.ofText (Assignment.valuation [⟨"a", false⟩]) true "a $" =
      .error (.unrecognised "$" 2) := by
    rw [Finding.ofText_eq, hstop]
    rfl
  have hrejected : (Condition.parse (σ := Unit) "a $").isOk = false := by
    rw [Condition.parse, hstop]
    rfl
  have hread : (Condition.parse (σ := Unit) "!a").isOk = true := by decide +kernel
  obtain ⟨happend, hfailures, -, -, hshown, hok, hrefused⟩ :=
    ofTexts_agrees (Assignment.valuation [⟨"a", false⟩])
  refine ⟨(happend true _ _).1, ?_, hfinding, hshown _ _ hfinding, ?_, ?_⟩
  · rw [hfailures]
    simp [hrejected, hread]
  · rw [hrefused _ _ _ herror]
    decide +kernel
  · rw [hok _ _ _ hfinding]
    decide +kernel

end Report

end PredicateExpr
