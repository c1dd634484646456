import PredicateExpr.Condition.Basic

/-!
# The log of compiling a condition

Each event of compiling is logged by an entry at the end of a log, which is kept on top of whatever
effects the resolver has. The resolver itself has no part in the log. `Event.toMessage` is the entry
for a log of messages.
-/

namespace PredicateExpr

/-- A message, as it is logged. -/
structure Message where
  /-- How much it matters. -/
  level : LogLevel
  /-- What it says. -/
  text : String
  deriving DecidableEq, Repr

/-- The message about an event, with its level. -/
def Event.toMessage (event : Event) : Message :=
  ⟨event.level, event.message⟩

variable {m : Type → Type} [Monad m] {σ ε : Type}

/-- Logs an event. -/
def Event.log (entry : Event → ε) (event : Event) : StateT (List ε) m Unit :=
  modify (· ++ [entry event])

/-- A resolver that is asked below a log. -/
def Resolver.belowLog (resolver : Resolver m σ) : Resolver (StateT (List ε) m) σ :=
  fun atom => StateT.lift (resolver atom)

/-- The condition that a text is, with its leaves put to a resolver, and the log of compiling it. -/
def Condition.compileLogged (entry : Event → ε) (resolver : Resolver m σ) (text : String) :
    m (Except CompileError (Condition σ) × List ε) :=
  (compile (Event.log entry) resolver.belowLog text).run.run []

end PredicateExpr
