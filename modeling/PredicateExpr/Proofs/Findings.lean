import Mathlib.Data.List.Basic
import Mathlib.Data.List.Induction
import PredicateExpr.Proofs.Course
import PredicateExpr.Proofs.Values
import PredicateExpr.Report

/-!
# What a finding depends on

A finding holds the tokens of a text, the rendering of its expression, and the value of that
expression by the truth tables, where a name without a value counts as true (`Finding.ofText_eq`).
So assignments have a part in a finding only through the values that they come to for the names that
the expression mentions (`Finding.eq_of_effective_eq`): it does not matter in what order names are
assigned, what is assigned to other names, what is assigned again later, and whether a name is
assigned true or not at all.
-/

namespace PredicateExpr

/-! ## The values that assignments come to -/

namespace Assignment

/-- The last assignment to a name decides which value it has. -/
theorem get?_valuation (assignments : List Assignment) (name : String) :
    (valuation assignments).get? name =
      ((assignments.filter (·.name = name)).getLast?.map value) := by
  induction assignments using List.reverseRecOn with
  | nil => rfl
  | append_singleton assignments last ih =>
    have hlast : valuation (assignments ++ [last]) =
        (valuation assignments).insert last.name last.value := by
      simp [valuation, Valuation.ofList]
    rw [hlast, Valuation.get?_insert, ih, List.filter_append]
    by_cases hname : last.name = name
    · simp [hname]
    · simp [hname, Ne.symm hname]

/-- The effective value of a name is its value, or true if it has none. -/
theorem getD_get?_valuation (assignments : List Assignment) (name : String) :
    ((valuation assignments).get? name).getD true = effective assignments name := by
  rw [get?_valuation, effective]

end Assignment

/-! ## The parts of a finding -/

/-- A leaf answers with the value of its name, and with true if that has none. -/
theorem Leaf.ask_callback? {σ : Type} (values : Valuation) (atom : Atom) (run : Run σ) :
    ((Leaf.mk atom (values.callback? atom)).ask run).1 = (values.get? atom.name).getD true := by
  unfold Leaf.ask Valuation.callback?
  cases values.get? atom.name <;> rfl

namespace Condition

variable {σ : Type}

/-- A condition resolved by a valuation has the value of its expression by the truth tables. -/
theorem run_resolved_callback? (values : Valuation) (t : Tree Atom) (state : σ) :
    ((resolved values.callback? t).run state).1 =
      t.value fun atom => (values.get? atom.name).getD true := by
  rw [run, evaluate_resolved]
  exact Tree.evaluate_constant (fun atom _ run => Leaf.ask_callback? values atom run) _

/-- A resolved condition is rendered as its expression. -/
theorem render_resolved (answer : Atom → Option (Callback σ)) (t : Tree Atom) :
    (resolved answer t).render = t.render := by
  rw [render, root_resolved, Tree.renderWith_map]
  rfl

end Condition

namespace Finding

/-- A finding holds the tokens, if asked for, the rendering of the expression and its value. -/
theorem ofText_eq (values : Valuation) (withTokens : Bool) (text : String) :
    ofText values withTokens text = do
      let tokens ← tokenize text
      let tree ← parse tokens
      return ⟨if withTokens then some tokens else none, tree.render,
        tree.value fun atom => (values.get? atom.name).getD true⟩ := by
  have hnew := Condition.run_new (m := Id) (σ := Unit) (.ofFunction values.callback?) text
  have hresolved : ∀ t : Tree Atom,
      (Condition.ofTree t).rebind (m := Id) (.ofFunction values.callback?) =
        Condition.resolved (σ := Unit) values.callback? t := fun t => rfl
  unfold ofText
  rw [hnew, Condition.parse]
  cases htokens : tokenize text with
  | error e => cases withTokens <;> rfl
  | ok tokens =>
    cases htree : parse tokens with
    | error e =>
      simp only [ok_bind, htree]
      cases withTokens <;> rfl
    | ok tree =>
      have hrender := Condition.render_resolved (σ := Unit) values.callback? tree
      have hvalue := Condition.run_resolved_callback? values tree ()
      simp only [ok_bind, htree]
      rw [← hrender, ← hvalue]
      cases withTokens <;> rfl

end Finding

/-! ## Names that are mentioned -/

/-- Whether the expression of a text has a leaf of a given name. -/
def Mentions (text name : String) : Prop :=
  ∃ condition : Condition Unit, Condition.parse text = .ok condition ∧
    ∃ leaf ∈ condition.root.leaves, leaf.atom.name = name

/-- The leaves of the expression that a text is read as have names that it mentions. -/
theorem mentions_of_mem_leaves {text : String} {tokens : List Token} {t : Tree Atom}
    (htokens : tokenize text = .ok tokens) (htree : parse tokens = .ok t) {atom : Atom}
    (hatom : atom ∈ t.leaves) : Mentions text atom.name := by
  have hparse : (Condition.parse text : Except CompileError (Condition Unit)) =
      .ok (.ofTree t) := by
    rw [Condition.parse, htokens, ok_bind, htree]
    rfl
  have hleaf : Leaf.unresolved atom ∈ (Condition.ofTree (σ := Unit) t).root.leaves := by
    rw [Condition.ofTree, Tree.leaves_map]
    exact List.mem_map_of_mem hatom
  exact ⟨_, hparse, _, hleaf, rfl⟩

namespace Assignment

/-- Two lists of assignments that come to the same value for every name that a text mentions. -/
def Agree (text : String) (first second : List Assignment) : Prop :=
  ∀ name, Mentions text name → effective first name = effective second name

variable {text : String} {before after first second : List Assignment}

/-- The assignments to one name decide its value among themselves. -/
theorem Agree.of_filter
    (h : ∀ name, Mentions text name →
      first.filter (·.name = name) = second.filter (·.name = name)) :
    Agree text first second := by
  intro name hname
  rw [effective, effective, h name hname]

/-- An assignment to a name that is assigned again later has no effect. -/
theorem Agree.of_overridden {overridden : Assignment}
    (h : ∃ later ∈ after, later.name = overridden.name) :
    Agree text (before ++ overridden :: after) (before ++ after) := by
  intro name _
  by_cases hname : overridden.name = name
  · obtain ⟨later, hmem, hlater⟩ := h
    have hkept : later ∈ after.filter (·.name = name) := by
      rw [List.mem_filter]
      exact ⟨hmem, by simp [hlater, hname]⟩
    have hlast := List.getLast?_eq_some_getLast (List.ne_nil_of_mem hkept)
    have hcons : (overridden :: after).filter (·.name = name) =
        overridden :: after.filter (·.name = name) :=
      List.filter_cons_of_pos (by simp [hname])
    rw [effective, effective, List.filter_append, List.filter_append, hcons,
      List.getLast?_append, List.getLast?_append, List.getLast?_cons, hlast]
    rfl
  · simp [effective, hname]

/-- To assign true to a name without an assignment has no effect. -/
theorem Agree.of_unassigned {name : String}
    (h : ∀ assignment ∈ before ++ after, assignment.name ≠ name) :
    Agree text (before ++ ⟨name, true⟩ :: after) (before ++ after) := by
  intro other _
  by_cases hother : name = other
  · have hnone : (before ++ after).filter (·.name = name) = [] := by
      rw [List.filter_eq_nil_iff]
      intro assignment hmem
      simpa using h assignment hmem
    have hsplit := hnone
    rw [List.filter_append, List.append_eq_nil_iff] at hsplit
    subst hother
    simp [effective, hsplit.1, hsplit.2]
  · simp [effective, hother]

end Assignment

/-! ## Findings -/

namespace Finding

/-- Assignments that agree on the names of a text lead to the same finding about it. -/
theorem ofText_congr {text : String} {first second : List Assignment}
    (h : Assignment.Agree text first second) (withTokens : Bool) :
    ofText (Assignment.valuation first) withTokens text =
      ofText (Assignment.valuation second) withTokens text := by
  rw [ofText_eq, ofText_eq]
  simp only [Assignment.getD_get?_valuation]
  cases htokens : tokenize text with
  | error e => rfl
  | ok tokens =>
    rw [ok_bind, ok_bind]
    cases htree : parse tokens with
    | error e => rfl
    | ok tree =>
      have hvalue := Tree.value_congr fun atom hatom =>
        h atom.name (mentions_of_mem_leaves htokens htree hatom)
      rw [ok_bind, ok_bind, hvalue]

/-- Assignments have a part in a finding only through their effective values for the names that the
text mentions, and likewise in a report. So assignments to different names may change places, and
those to other names do not matter; an assignment that is overridden may be dropped, and one of true
to an unassigned name may be added. -/
theorem eq_of_effective_eq (withTokens : Bool) :
    (∀ text first second, Assignment.Agree text first second →
      ofText (Assignment.valuation first) withTokens text =
        ofText (Assignment.valuation second) withTokens text) ∧
    (∀ texts first second, (∀ text ∈ texts, Assignment.Agree text first second) →
      Report.ofTexts (Assignment.valuation first) withTokens texts =
        Report.ofTexts (Assignment.valuation second) withTokens texts) ∧
    (∀ text (first second : List Assignment),
      (∀ name, Mentions text name →
        first.filter (·.name = name) = second.filter (·.name = name)) →
      ofText (Assignment.valuation first) withTokens text =
        ofText (Assignment.valuation second) withTokens text) ∧
    (∀ text before (overridden : Assignment) after,
      (∃ later ∈ after, later.name = overridden.name) →
      ofText (Assignment.valuation (before ++ overridden :: after)) withTokens text =
        ofText (Assignment.valuation (before ++ after)) withTokens text) ∧
    ∀ text before name after, (∀ assignment ∈ before ++ after, assignment.name ≠ name) →
      ofText (Assignment.valuation (before ++ ⟨name, true⟩ :: after)) withTokens text =
        ofText (Assignment.valuation (before ++ after)) withTokens text := by
  refine ⟨?_, ?_, ?_, ?_, ?_⟩
  · intro text first second h
    exact ofText_congr h withTokens
  · intro texts first second h
    apply List.foldl_ext
    intro report text hmem
    rw [ofText_congr (h text hmem)]
  · intro text first second h
    exact ofText_congr (.of_filter h) withTokens
  · intro text before overridden after h
    exact ofText_congr (.of_overridden h) withTokens
  · intro text before name after h
    exact ofText_congr (.of_unassigned h) withTokens

/-- An expression that mentions `a` and `b`: assignments to another name, an overridden one and one
of true make no difference, each alone and all together. -/
theorem eq_of_effective_eq_of_negated :
    Assignment.Agree "!a ^ b 1" [⟨"z", false⟩, ⟨"a", true⟩, ⟨"b", true⟩, ⟨"a", false⟩]
      [⟨"a", false⟩] ∧
    ofText (Assignment.valuation [⟨"z", false⟩, ⟨"a", true⟩, ⟨"b", true⟩, ⟨"a", false⟩]) true
        "!a ^ b 1" =
      ofText (Assignment.valuation [⟨"a", false⟩]) true "!a ^ b 1" ∧
    ofText (Assignment.valuation [⟨"a", true⟩, ⟨"a", false⟩]) true "!a ^ b 1" =
      ofText (Assignment.valuation [⟨"a", false⟩]) true "!a ^ b 1" ∧
    ofText (Assignment.valuation [⟨"a", false⟩, ⟨"b", true⟩]) true "!a ^ b 1" =
      ofText (Assignment.valuation [⟨"a", false⟩]) true "!a ^ b 1" ∧
    ofText (Assignment.valuation [⟨"a", false⟩]) true "!a ^ b 1" =
      .ok ⟨some [⟨.operator, "!", 0⟩, ⟨.word, "a", 1⟩, ⟨.operator, "^", 3⟩, ⟨.word, "b", 5⟩,
        ⟨.literal, "1", 7⟩], "[ [ NOT a() ] XOR b(1) ]", false⟩ := by
  have htokens : tokenize "!a ^ b 1" = .ok [⟨.operator, "!", 0⟩, ⟨.word, "a", 1⟩,
      ⟨.operator, "^", 3⟩, ⟨.word, "b", 5⟩, ⟨.literal, "1", 7⟩] := by decide +kernel
  have hparse : (Condition.parse "!a ^ b 1" : Except CompileError (Condition Unit)) =
      .ok (.ofTree (.join .xor (.not (.leaf ⟨"a", []⟩)) (.leaf ⟨"b", ["1"]⟩))) := by
    rw [Condition.parse, htokens]
    rfl
  have hagree : Assignment.Agree "!a ^ b 1"
      [⟨"z", false⟩, ⟨"a", true⟩, ⟨"b", true⟩, ⟨"a", false⟩] [⟨"a", false⟩] := by
    rintro name ⟨condition, hcondition, leaf, hleaf, rfl⟩
    rw [hparse] at hcondition
    cases hcondition
    rw [Condition.ofTree, Tree.leaves_map] at hleaf
    obtain ⟨atom, hatom, rfl⟩ := List.mem_map.mp hleaf
    have hnames : atom = ⟨"a", []⟩ ∨ atom = ⟨"b", ["1"]⟩ := by simpa [Tree.leaves] using hatom
    rcases hnames with rfl | rfl <;> decide
  obtain ⟨hcongr, -, -, hoverridden, hunassigned⟩ := eq_of_effective_eq true
  refine ⟨hagree, hcongr _ _ _ hagree, ?_, ?_, ?_⟩
  · exact hoverridden "!a ^ b 1" [] ⟨"a", true⟩ [⟨"a", false⟩] ⟨⟨"a", false⟩, by simp, rfl⟩
  · exact hunassigned "!a ^ b 1" [⟨"a", false⟩] "b" [] (by simp)
  · rw [ofText_eq, htokens]
    rfl

end Finding

end PredicateExpr
