import Mathlib.Tactic.Common
import PredicateExpr.Condition.Course
import PredicateExpr.Proofs.Outcome
import PredicateExpr.Proofs.Traversal

/-!
# What happens to a condition in its course

A condition that is read from a text is put to resolvers, evaluated, and put to resolvers again,
while the state of its callbacks changes. Its expression stays what it was
(`Session.expression_after`), and its leaves have the answers that they were given last, and no
others (`Session.leaves_after_of_lastAnswers`). So a condition forgets all that was done to it
before its leaves were put to a resolver for the last time (`Session.course`).
-/

namespace PredicateExpr

/-! ## Compiling -/

namespace Condition

/-- A text is read as an expression with no leaf resolved. -/
theorem eq_ofTree_of_parse {σ : Type} {text : String} {condition : Condition σ}
    (h : parse text = .ok condition) : condition = ofTree condition.expression := by
  obtain ⟨tokens, _, h⟩ := bind_eq_ok_iff.mp h
  obtain ⟨tree, _, h⟩ := bind_eq_ok_iff.mp h
  cases h
  rw [expression, ofTree, Tree.map_map]
  exact congrArg ofTree (Tree.map_id tree).symm

/-- A text is read in two steps. -/
theorem parse_eq_map {σ : Type} (text : String) :
    (parse text : Except CompileError (Condition σ)) =
      (tokenize text >>= PredicateExpr.parse).map ofTree := by
  rw [parse]
  cases tokenize text with
  | error e => rfl
  | ok tokens =>
    rw [ok_bind, ok_bind]
    cases PredicateExpr.parse tokens <;> rfl

/-- What compiling reports and does, step by step: the tokens are reported first, those in front of
an error, too. -/
theorem run_compile {m : Type → Type} [Monad m] [LawfulMonad m] {σ : Type}
    (report : Event → m Unit) (resolver : Resolver m σ) (text : String) :
    (compile report resolver text).run = do
      (scan text).tokens.forM fun token => report (.lexed token)
      match tokenize text >>= PredicateExpr.parse with
      | .error e => return .error e
      | .ok tree =>
        report (.parsed tree)
        return .ok (← (ofTree tree).rebind (resolver.reporting report)) := by
  unfold compile tokenize
  rw [run_forM_below_bind]
  refine bind_congr fun _ => ?_
  rw [run_liftM_bind]
  cases (scan text).result with
  | error e => rfl
  | ok tokens =>
    dsimp only
    rw [ok_bind, run_liftM_bind]
    cases PredicateExpr.parse tokens with
    | error e => rfl
    | ok tree =>
      dsimp only
      rw [run_below_bind, ExceptT.run_lift, map_eq_pure_bind]

/-- Compiling against a resolver is reading, then resolving. Where the text cannot be read the
resolver is not asked. -/
theorem run_new {m : Type → Type} [Monad m] [LawfulMonad m] {σ : Type} (resolver : Resolver m σ)
    (text : String) :
    (new resolver text).run =
      match parse text with
      | .error e => pure (.error e)
      | .ok condition => Except.ok <$> condition.rebind resolver := by
  have hreporting : resolver.reporting (fun _ => pure ()) = resolver := by
    funext atom
    simp [Resolver.reporting]
  have hreport : ((scan text).tokens.forM fun _ => (pure () : m Unit)) = pure () := by
    rw [List.forM_eq_forM]
    induction (scan text).tokens with
    | nil => rfl
    | cons token tokens ih => rw [List.forM_cons, pure_bind, ih]
  rw [new, run_compile, hreporting, hreport, pure_bind, parse_eq_map]
  cases tokenize text >>= PredicateExpr.parse with
  | error e => rfl
  | ok tree =>
    dsimp only
    rw [pure_bind, ← map_eq_pure_bind]
    rfl

/-- The rendering of a condition is that of its expression. -/
theorem render_eq {σ : Type} (condition : Condition σ) :
    condition.render = condition.expression.render :=
  (Tree.renderWith_map Atom.render Leaf.atom condition.root).symm

/-- A condition that was put to a resolver has the answers of that resolver. -/
theorem leaves_rebind {σ τ : Type} (resolver : Resolver (StateM τ) σ) (condition : Condition σ)
    (state : τ) :
    (condition.rebind resolver state).1.root.leaves =
      List.zipWith Leaf.mk condition.expression.leaves
        ((condition.expression.leaves.mapM resolver).run state).1 := by
  have hresolve := Tree.leaves_resolve resolver condition.root
  rw [← Tree.leaves_map] at hresolve
  exact congrArg (fun x : StateM τ _ => (x.run state).1) hresolve

/-- A resolver that is known in advance replaces the callbacks, and has no other effect. -/
theorem rebind_ofFunction {m : Type → Type} [Monad m] [LawfulMonad m] {σ : Type}
    (answer : Atom → Option (Callback σ)) (condition : Condition σ) :
    condition.rebind (.ofFunction answer : Resolver m σ) =
      pure ⟨condition.root.map fun leaf => ⟨leaf.atom, answer leaf.atom⟩, true⟩ := by
  simp only [rebind, Tree.resolve, Resolver.ofFunction, pure_bind, Tree.traverse_pure]

/-- Keeping record of the questions changes no answer. -/
theorem rebindRecording_eq {σ : Type} (answer : Atom → Option (Callback σ))
    (condition : Condition σ) :
    (condition.rebindRecording answer).1 = Id.run (condition.rebind (.ofFunction answer)) := by
  rw [rebind_ofFunction]
  have hroot := Tree.map_traverse (g := id) (h := fun leaf => ⟨leaf.atom, answer leaf.atom⟩)
    (f := fun leaf : Leaf σ => do
      return { leaf with callback? := ← Resolver.recording answer leaf.atom })
    (fun _ _ => rfl) condition.root []
  rw [Tree.map_id] at hroot
  exact congrArg (Condition.mk · true) hroot

end Condition

namespace Session

variable {σ : Type}

/-! ## One action -/

/-- An action that puts no leaf to a resolver keeps the condition. -/
theorem condition_act {action : Action σ} (h : action.isRebind = false) (session : Session σ) :
    (session.act action).2.condition = session.condition := by
  cases action with
  | evaluate => rfl
  | rebind resolver => cases h
  | change f => rfl

/-- Every action keeps the expression. -/
theorem expression_act (action : Action σ) (session : Session σ) :
    (session.act action).2.condition.expression = session.condition.expression := by
  cases action with
  | evaluate => rfl
  | rebind resolver => exact Tree.map_atom_resolve resolver session.condition.root session.state
  | change f => rfl

/-- A condition is bound from the first resolver on. -/
theorem bound_act (action : Action σ) (session : Session σ) :
    (session.act action).2.condition.bound = (session.condition.bound || action.isRebind) := by
  cases action with
  | evaluate => exact (Bool.or_false _).symm
  | rebind resolver => exact (Bool.or_true _).symm
  | change f => exact (Bool.or_false _).symm

/-! ## A row of actions -/

/-- A row of actions without a new resolver keeps the condition. -/
theorem condition_after {actions : List (Action σ)}
    (h : ∀ action ∈ actions, action.isRebind = false) (session : Session σ) :
    (session.after actions).condition = session.condition := by
  induction actions generalizing session with
  | nil => rfl
  | cons action later ih =>
    rw [List.forall_mem_cons] at h
    rw [after, ih h.2, condition_act h.1]

/-- No row of actions changes the expression. -/
theorem expression_after (actions : List (Action σ)) (session : Session σ) :
    (session.after actions).condition.expression = session.condition.expression := by
  induction actions generalizing session with
  | nil => rfl
  | cons action later ih => rw [after, ih, expression_act]

/-- A condition is bound once a new resolver came along, or if it was bound before. -/
theorem bound_after (actions : List (Action σ)) (session : Session σ) :
    (session.after actions).condition.bound =
      (session.condition.bound || actions.any Action.isRebind) := by
  induction actions generalizing session with
  | nil => exact (Bool.or_false _).symm
  | cons action later ih => rw [after, ih, bound_act, List.any_cons, Bool.or_assoc]

/-! ## The last answers -/

/-- A row of actions in which there is a resolver has a last one. -/
theorem exists_last_rebind {actions : List (Action σ)}
    (h : ∃ action ∈ actions, action.isRebind = true) :
    ∃ before resolver later, actions = before ++ .rebind resolver :: later ∧
      ∀ action ∈ later, action.isRebind = false := by
  induction actions with
  | nil => simp at h
  | cons action actions ih =>
    -- the first action counts only if no resolver comes later
    by_cases hlater : ∃ action ∈ actions, action.isRebind = true
    · obtain ⟨before, resolver, later, rfl, hnone⟩ := ih hlater
      exact ⟨action :: before, resolver, later, rfl, hnone⟩
    · have hnone : ∀ action ∈ actions, action.isRebind = false := by simpa using hlater
      cases action with
      | rebind resolver => exact ⟨[], resolver, actions, rfl, hnone⟩
      | evaluate | change => exact absurd (by simpa [Action.isRebind] using h) hlater

/-- There are last answers as soon as there was a resolver. -/
theorem exists_lastAnswers_iff {start : Session σ} {history : List (Action σ)} :
    (∃ answers, start.LastAnswers history answers) ↔
      ∃ action ∈ history, action.isRebind = true := by
  constructor
  · rintro ⟨_, before, resolver, later, rfl, -, -⟩
    exact ⟨.rebind resolver, by simp, rfl⟩
  · intro h
    obtain ⟨before, resolver, later, rfl, hlater⟩ := exists_last_rebind h
    exact ⟨_, before, resolver, later, rfl, hlater, rfl⟩

/-- The leaves have the answers that they were given last, whatever was done before and since. -/
theorem leaves_after_of_lastAnswers {start : Session σ} {history : List (Action σ)}
    {answers : List (Option (Callback σ))} (h : start.LastAnswers history answers) :
    (start.after history).condition.root.leaves =
      List.zipWith Leaf.mk start.condition.expression.leaves answers := by
  obtain ⟨before, resolver, later, rfl, hlater, rfl⟩ := h
  rw [after_append, after, condition_after hlater, ← expression_after before start]
  exact Condition.leaves_rebind resolver _ _

/-- Sessions that began with one condition, and whose leaves were given the same answers last, have
one condition again. -/
theorem condition_eq_of_lastAnswers {condition : Condition σ} {state₁ state₂ : σ}
    {history₁ history₂ : List (Action σ)} {answers : List (Option (Callback σ))}
    (h₁ : LastAnswers ⟨condition, state₁⟩ history₁ answers)
    (h₂ : LastAnswers ⟨condition, state₂⟩ history₂ answers) :
    (Session.after ⟨condition, state₁⟩ history₁).condition =
      (Session.after ⟨condition, state₂⟩ history₂).condition := by
  have hexpression : (Session.after ⟨condition, state₁⟩ history₁).condition.expression =
      (Session.after ⟨condition, state₂⟩ history₂).condition.expression := by
    rw [expression_after, expression_after]
  have hleaves : (Session.after ⟨condition, state₁⟩ history₁).condition.root.leaves =
      (Session.after ⟨condition, state₂⟩ history₂).condition.root.leaves := by
    rw [leaves_after_of_lastAnswers h₁, leaves_after_of_lastAnswers h₂]
  have hbound : ∀ {state : σ} {history : List (Action σ)},
      LastAnswers ⟨condition, state⟩ history answers →
      (Session.after ⟨condition, state⟩ history).condition.bound = true := by
    intro state history h
    rw [bound_after, List.any_eq_true.mpr (exists_lastAnswers_iff.mp ⟨_, h⟩), Bool.or_true]
  rw [Condition.mk.injEq]
  exact ⟨Tree.eq_of_map_eq hexpression hleaves, (hbound h₁).trans (hbound h₂).symm⟩

/-! ## Openings -/

/-- A session is opened by reading a text, and putting the leaves to the resolver, if there is
one. -/
theorem opening_eq (resolver? : Option (Resolver (StateM σ) σ)) (text : String) (state : σ) :
    opening resolver? text state =
      (Condition.parse text).map fun condition =>
        Session.after ⟨condition, state⟩ (history resolver? []) := by
  cases resolver? with
  | none =>
    unfold opening
    cases (Condition.parse text : Except CompileError (Condition σ)) <;> rfl
  | some resolver =>
    simp only [opening, Condition.run_new]
    cases (Condition.parse text : Except CompileError (Condition σ)) <;> rfl

/-- An opened session comes to where its condition comes when that is read first. -/
theorem after_of_opening {resolver? : Option (Resolver (StateM σ) σ)} {text : String} {state : σ}
    {condition : Condition σ} {session : Session σ} (hparse : Condition.parse text = .ok condition)
    (hopening : opening resolver? text state = .ok session) (actions : List (Action σ)) :
    session.after actions = Session.after ⟨condition, state⟩ (history resolver? actions) := by
  rw [opening_eq, hparse] at hopening
  cases hopening
  rw [← after_append, history, history, List.append_nil]

/-- A condition that was read is bound when there is a resolver in its history. -/
theorem bound_after_of_parse {text : String} {condition : Condition σ}
    (h : Condition.parse text = .ok condition) (state : σ) (history : List (Action σ)) :
    (Session.after ⟨condition, state⟩ history).condition.bound = history.any Action.isRebind := by
  rw [bound_after, Condition.eq_ofTree_of_parse h]
  exact Bool.false_or _

/-- As long as there was no resolver, no leaf of a condition that was read is resolved. -/
theorem resolved_after_of_parse {text : String} {condition : Condition σ}
    {history : List (Action σ)} (h : Condition.parse text = .ok condition)
    (hhistory : ∀ action ∈ history, action.isRebind = false) (state : σ) :
    ∀ leaf ∈ (Session.after ⟨condition, state⟩ history).condition.root.leaves,
      leaf.resolved = false := by
  rw [condition_after hhistory, Condition.eq_ofTree_of_parse h, Condition.ofTree, Tree.leaves_map,
    List.forall_mem_map]
  exact fun _ _ => rfl

/-- A condition that was read follows its history. -/
theorem follows_after {text : String} {condition : Condition σ}
    (h : Condition.parse text = .ok condition) (state : σ) (history : List (Action σ)) :
    Follows ⟨condition, state⟩ history (Session.after ⟨condition, state⟩ history) where
  expression := expression_after history _
  render := by rw [Condition.render_eq, Condition.render_eq, expression_after]
  bound := by rw [bound_after_of_parse h, List.any_eq_true]
  unresolved := by
    intro hfalse
    rw [bound_after_of_parse h, List.any_eq_false] at hfalse
    have hnone : ∀ action ∈ history, action.isRebind = false := by simpa using hfalse
    exact resolved_after_of_parse h hnone state
  answered := by
    intro htrue
    rw [bound_after_of_parse h, List.any_eq_true] at htrue
    exact exists_lastAnswers_iff.mpr htrue
  leaves := fun _ => leaves_after_of_lastAnswers
  evaluate := rfl
  calls := Tree.evaluate_ask _ _

/-- A text that can be read opens a session, which follows its history from then on. -/
theorem exists_opening {text : String} {condition : Condition σ}
    (h : Condition.parse text = .ok condition) (resolver? : Option (Resolver (StateM σ) σ))
    (state : σ) :
    ∃ session, opening resolver? text state = .ok session ∧ ∀ actions,
      Follows ⟨condition, state⟩ (history resolver? actions) (session.after actions) := by
  have hopening : opening resolver? text state =
      .ok (Session.after ⟨condition, state⟩ (history resolver? [])) := by
    rw [opening_eq, h]
    rfl
  refine ⟨_, hopening, fun actions => ?_⟩
  rw [after_of_opening h hopening]
  exact follows_after h state _

/-- Whether a text can be read does not depend on the resolver, which is asked only if it can. From
then on a condition keeps its expression, is bound from the first resolver on, and has the answers
of the last one for its callbacks; nothing else that was done to it makes a difference later. -/
theorem course (text : String) :
    (∀ {m : Type → Type} [Monad m] [LawfulMonad m] (resolver : Resolver m σ),
      (Condition.new resolver text).run =
        match Condition.parse text with
        | .error e => pure (.error e)
        | .ok condition => Except.ok <$> condition.rebind resolver) ∧
    match (Condition.parse text : Except CompileError (Condition σ)) with
    | .error e => ∀ resolver? (state : σ), opening resolver? text state = .error e
    | .ok condition =>
      (∀ resolver? (state : σ), ∃ session, opening resolver? text state = .ok session ∧
        ∀ actions, Follows ⟨condition, state⟩ (history resolver? actions)
          (session.after actions)) ∧
      ∀ resolver₁? resolver₂? (state₁ state₂ : σ) session₁ session₂ actions₁ actions₂ answers,
        opening resolver₁? text state₁ = .ok session₁ →
        opening resolver₂? text state₂ = .ok session₂ →
        LastAnswers ⟨condition, state₁⟩ (history resolver₁? actions₁) answers →
        LastAnswers ⟨condition, state₂⟩ (history resolver₂? actions₂) answers →
        (session₁.after actions₁).condition = (session₂.after actions₂).condition ∧
        ∀ state later, outcomes ⟨(session₁.after actions₁).condition, state⟩ later =
          outcomes ⟨(session₂.after actions₂).condition, state⟩ later := by
  refine ⟨fun resolver => Condition.run_new resolver text, ?_⟩
  cases hparse : (Condition.parse text : Except CompileError (Condition σ)) with
  | error e =>
    intro resolver? state
    rw [opening_eq, hparse]
    rfl
  | ok condition =>
    refine ⟨exists_opening hparse, ?_⟩
    intro resolver₁? resolver₂? state₁ state₂ session₁ session₂ actions₁ actions₂ answers
      hopening₁ hopening₂ h₁ h₂
    have hcondition : (session₁.after actions₁).condition =
        (session₂.after actions₂).condition := by
      rw [after_of_opening hparse hopening₁, after_of_opening hparse hopening₂]
      exact condition_eq_of_lastAnswers h₁ h₂
    refine ⟨hcondition, ?_⟩
    intro state later
    rw [hcondition]

/-- A resolver that knows every other predicate, by a callback that inverts the state. -/
def alternating : Resolver (StateM Bool) Bool :=
  fun _ flag => (if flag then none else some fun flag => (flag, !flag), !flag)

/-- Two sessions that were put to a resolver in different states, but were asked in the same one. -/
theorem course_of_alternating :
    ∃ session₁ session₂, opening none "a or b 'x'" true = .ok session₁ ∧
      opening (some .unknown) "a or b 'x'" false = .ok session₂ ∧
      (session₁.after [.change Bool.not, .rebind alternating, .evaluate]).condition =
        (session₂.after [.rebind alternating]).condition := by
  have htokens : tokenize "a or b 'x'" =
      .ok [⟨.word, "a", 0⟩, ⟨.operator, "or", 2⟩, ⟨.word, "b", 5⟩, ⟨.literal, "x", 7⟩] := by
    decide +kernel
  have hparse : (Condition.parse "a or b 'x'" : Except CompileError (Condition Bool)) =
      .ok (.ofTree (.join .or (.leaf ⟨"a", []⟩) (.leaf ⟨"b", ["x"]⟩))) := by
    rw [Condition.parse, htokens]
    rfl
  have hcourse := (@course Bool "a or b 'x'").2
  rw [hparse] at hcourse
  obtain ⟨hopening, hsame⟩ := hcourse
  obtain ⟨session₁, hsession₁, -⟩ := hopening none true
  obtain ⟨session₂, hsession₂, -⟩ := hopening (some .unknown) false
  refine ⟨session₁, session₂, hsession₁, hsession₂, ?_⟩
  have hanswers₁ : LastAnswers ⟨.ofTree (.join .or (.leaf ⟨"a", []⟩) (.leaf ⟨"b", ["x"]⟩)), true⟩
      [.change Bool.not, .rebind alternating, .evaluate]
      [some fun flag => (flag, !flag), none] :=
    ⟨[.change Bool.not], alternating, [.evaluate], rfl, by simp [Action.isRebind], rfl⟩
  have hanswers₂ : LastAnswers ⟨.ofTree (.join .or (.leaf ⟨"a", []⟩) (.leaf ⟨"b", ["x"]⟩)), false⟩
      [.rebind .unknown, .rebind alternating] [some fun flag => (flag, !flag), none] :=
    ⟨[.rebind .unknown], alternating, [], rfl, by simp, rfl⟩
  exact (hsame _ _ _ _ _ _ _ _ _ hsession₁ hsession₂ hanswers₁ hanswers₂).1

/-! ## Resolvers that are known in advance -/

/-- The session after its leaves were put to a resolver that does nothing but answer. -/
theorem act_rebind_ofFunction (answer : Atom → Option (Callback σ)) (session : Session σ) :
    (session.act (.rebind (.ofFunction answer))).2 =
      { session with condition := Id.run (session.condition.rebind (.ofFunction answer)) } := by
  simp only [act, Condition.rebind_ofFunction]
  rfl

/-- A step of a session is an action. -/
theorem step_eq_act (session : Session σ) (step : Step σ) :
    (session.step step).2 = (session.act step.toAction).2 := by
  cases step with
  | evaluate | change | look => rfl
  | rebind answer =>
    rw [Step.toAction, act_rebind_ofFunction, ← Condition.rebindRecording_eq]
    rfl
  | unbind => exact (act_rebind_ofFunction (fun _ => none) session).symm

/-- Starting a session is opening it. -/
theorem start_eq_opening (answer? : Option (Atom → Option (Callback σ))) (state : σ)
    (text : String) :
    (start answer? state text).map Prod.fst =
      opening (answer?.map Resolver.ofFunction) text state := by
  rw [opening_eq]
  cases answer? with
  | none =>
    unfold start
    cases (Condition.parse text : Except CompileError (Condition σ)) <;> rfl
  | some answer =>
    simp only [start, Condition.run_new]
    cases (Condition.parse text : Except CompileError (Condition σ)) with
    | error e => rfl
    | ok condition =>
      refine congrArg Except.ok ?_
      refine .trans ?_ (act_rebind_ofFunction answer ⟨condition, state⟩).symm
      rw [← Condition.rebindRecording_eq]
      rfl

end Session

end PredicateExpr
