import PredicateExpr.Condition.Session

/-!
# The course of a condition

A resolver that is known in advance gives equal answers to equal questions. In general it computes
its answers, may look at the state that the callbacks share, and may change it. `Session.act` is a
step of a session with resolvers of this kind, and `Session.after` a row of steps. To put the leaves
to `Resolver.unknown` is to take their callbacks away.

`Session.LastAnswers` says, of everything that was done to a session, which answers its leaves were
given last.
-/

namespace PredicateExpr

/-- The expression of a condition, without the callbacks. -/
def Condition.expression {σ : Type} (condition : Condition σ) : Tree Atom :=
  condition.root.map Leaf.atom

/-- What can be done to a condition, or to the state that its callbacks share. -/
inductive Action (σ : Type)
  /-- Evaluate the condition. -/
  | evaluate
  /-- Put the leaves to a resolver. -/
  | rebind (resolver : Resolver (StateM σ) σ)
  /-- Change the state. -/
  | change (f : σ → σ)

/-- Whether an action puts the leaves to a resolver. -/
def Action.isRebind {σ : Type} : Action σ → Bool
  | .rebind _ => true
  | .evaluate => false
  | .change _ => false

namespace Session

variable {σ : Type}

/-- The action that a step amounts to. -/
def Step.toAction : Step σ → Action σ
  | .evaluate => .evaluate
  | .rebind answer => .rebind (.ofFunction answer)
  | .unbind => .rebind .unknown
  | .change f => .change f
  | .look => .change id

/-- A session on a text whose leaves are put to a resolver at once, if there is one. -/
def opening (resolver? : Option (Resolver (StateM σ) σ)) (text : String) (state : σ) :
    Except CompileError (Session σ) :=
  match resolver? with
  | none => do return ⟨← Condition.parse text, state⟩
  | some resolver => do
    let (outcome, state) := (Condition.new resolver text).run.run state
    return ⟨← outcome, state⟩

/-- The value and the calls of an action that evaluates, and the session after an action. -/
def act (session : Session σ) : Action σ → Option (Bool × List Atom) × Session σ
  | .evaluate =>
    let (value, run) := session.condition.run session.state
    (some (value, run.calls), { session with state := run.state })
  | .rebind resolver =>
    let (condition, state) := (session.condition.rebind resolver).run session.state
    (none, ⟨condition, state⟩)
  | .change f => (none, { session with state := f session.state })

/-- The session after a row of actions. -/
def after (session : Session σ) : List (Action σ) → Session σ
  | [] => session
  | action :: later => (session.act action).2.after later

/-- The values and the calls of a row of actions. -/
def outcomes (session : Session σ) : List (Action σ) → List (Option (Bool × List Atom))
  | [] => []
  | action :: later => (session.act action).1 :: (session.act action).2.outcomes later

/-- All that is done to a condition that was read and then, if there was a resolver at the start,
put to it. -/
def history (resolver? : Option (Resolver (StateM σ) σ)) (actions : List (Action σ)) :
    List (Action σ) :=
  (resolver?.map .rebind).toList ++ actions

/-- The answers, leaf by leaf, of the resolver to which the leaves of a session were put last. It
answered in the state in which it was asked. -/
def LastAnswers (start : Session σ) (history : List (Action σ))
    (answers : List (Option (Callback σ))) : Prop :=
  ∃ before resolver later, history = before ++ .rebind resolver :: later ∧
    (∀ action ∈ later, action.isRebind = false) ∧
    answers =
      ((start.condition.expression.leaves.mapM resolver).run (start.after before).state).1

/-- What a history leaves of the session that it began with. -/
structure Follows (start : Session σ) (history : List (Action σ)) (session : Session σ) : Prop where
  /-- The expression is the same: its shape, and the names and arguments of its leaves. -/
  expression : session.condition.expression = start.condition.expression
  /-- So is its rendering. -/
  render : session.condition.render = start.condition.render
  /-- The condition is bound from the first resolver on. -/
  bound : session.condition.bound = true ↔ ∃ action ∈ history, action.isRebind = true
  /-- Before that no leaf is resolved. -/
  unresolved : session.condition.bound = false →
    ∀ leaf ∈ session.condition.root.leaves, leaf.resolved = false
  /-- Then there is a resolver that came last. -/
  answered : session.condition.bound = true → ∃ answers, start.LastAnswers history answers
  /-- Its answers are the callbacks of the leaves, one by one. -/
  leaves : ∀ answers, start.LastAnswers history answers →
    session.condition.root.leaves =
      List.zipWith Leaf.mk start.condition.expression.leaves answers
  /-- An evaluation keeps the condition. -/
  evaluate : (session.act .evaluate).2.condition = session.condition
  /-- It does to the state, and to the record of calls, what the callbacks of some leaves do, from
  left to right. -/
  calls : ∃ called : List (Leaf σ),
    called.Sublist (session.condition.root.leaves.filter Leaf.resolved) ∧
      (session.condition.run session.state).2 =
        called.foldl (fun run leaf => (leaf.ask run).2) ⟨session.state, []⟩

/-- Two rows of actions, one after the other, are one row. -/
theorem after_append (session : Session σ) (actions later : List (Action σ)) :
    session.after (actions ++ later) = (session.after actions).after later := by
  induction actions generalizing session with
  | nil => rfl
  | cons action actions ih => exact ih _

end Session

end PredicateExpr
