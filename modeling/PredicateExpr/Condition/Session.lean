import PredicateExpr.Condition.Basic

/-!
# Sessions

A session works on one condition while the state of its callbacks lives on: it evaluates the
condition, puts its leaves to other resolvers, changes the state from outside, and looks at where
things stand. `Session.step` gives the answer to one step and the session afterwards.
-/

namespace PredicateExpr

/-- A condition put to a resolver whose answers are known in advance, with the questions asked. -/
def Condition.rebindRecording {σ : Type} (answer : Atom → Option (Callback σ))
    (condition : Condition σ) : Condition σ × List Request :=
  (condition.rebind (Resolver.recording answer)).run []

/-- A condition and the state that its callbacks share. -/
structure Session (σ : Type) where
  /-- The condition. -/
  condition : Condition σ
  /-- The state. -/
  state : σ

namespace Session

/-- What can be done in a session. -/
inductive Step (σ : Type)
  /-- Evaluate the condition. -/
  | evaluate
  /-- Put the leaves to a resolver. -/
  | rebind (answer : Atom → Option (Callback σ))
  /-- Put the leaves to the resolver that knows no predicate. -/
  | unbind
  /-- Change the state. -/
  | change (f : σ → σ)
  /-- Look at the session. -/
  | look

/-- What a step answers. -/
inductive Answer (σ : Type)
  /-- The value of the condition, and the atoms whose callbacks were called. -/
  | evaluated (value : Bool) (calls : List Atom)
  /-- The questions put to a resolver that keeps record of them. -/
  | resolved (requests : List Request)
  /-- The state after a change. -/
  | changed (state : σ)
  /-- The session as it is. -/
  | seen (session : Session σ)

variable {σ : Type}

/-- A session on a text, with the questions asked at its start: none, unless there is a resolver to
put them to. -/
def start (answer? : Option (Atom → Option (Callback σ))) (state : σ) (text : String) :
    Except CompileError (Session σ × List Request) :=
  match answer? with
  | none => do return (⟨← Condition.parse text, state⟩, [])
  | some answer => do
    let (outcome, requests) := ((Condition.new (Resolver.recording answer) text).run).run []
    return (⟨← outcome, state⟩, requests)

/-- The answer to a step, and the session after it. -/
def step (session : Session σ) : Step σ → Answer σ × Session σ
  | .evaluate =>
    let (value, run) := session.condition.run session.state
    (.evaluated value run.calls, { session with state := run.state })
  | .rebind answer =>
    let (condition, requests) := session.condition.rebindRecording answer
    (.resolved requests, { session with condition })
  | .unbind =>
    let condition := Id.run (session.condition.rebind Resolver.unknown)
    (.resolved [], { session with condition })
  | .change f =>
    let state := f session.state
    (.changed state, { session with state })
  | .look => (.seen session, session)

/-- The answers to a sequence of steps. -/
def answers (session : Session σ) : List (Step σ) → List (Answer σ)
  | [] => []
  | step :: steps =>
    let (answer, later) := session.step step
    answer :: later.answers steps

end Session

end PredicateExpr
