import PredicateExpr.Evaluation
import PredicateExpr.LogLevel
import PredicateExpr.Nesting
import PredicateExpr.Token.Lexer
import PredicateExpr.Tree.Render

/-!
# Conditions

A condition is an expression that was read from text, together with the callbacks of its leaves. It
can be resolved again at any time, which replaces all callbacks and nothing else, and evaluated any
number of times, which changes nothing but the state that the callbacks share.

`Condition.compile` reads and resolves a condition and reports what it does on the way as events;
`Condition.parse` reads one without resolving it.
-/

namespace PredicateExpr

/-- An expression with the callbacks of its leaves. -/
structure Condition (σ : Type) where
  /-- The expression. -/
  root : Tree (Leaf σ)
  /-- Whether its leaves were put to a resolver at least once. -/
  bound : Bool

/-! ## What is reported while a condition is compiled -/

/-- A step of compiling a condition. -/
inductive Event
  /-- A token was read. -/
  | lexed (token : Token)
  /-- The tokens were found to be an expression. -/
  | parsed (tree : Tree Atom)
  /-- A leaf got no callback. -/
  | unresolved (atom : Atom)
  deriving DecidableEq, Repr

namespace Event

/-- The level of the message about an event. -/
def level : Event → LogLevel
  | lexed _ => .trace
  | parsed _ => .debug
  | unresolved _ => .debug

/-- The message about an event. -/
def message : Event → String
  | lexed token => s!"lexed {token.kind.name} `{token.text}` at byte {token.offset}"
  | parsed tree => s!"parsed expression {tree.render}"
  | unresolved atom => s!"predicate `{atom.render}` left unresolved; it will evaluate true"

end Event

/-- A resolver that reports the leaves that it leaves unresolved. -/
def Resolver.reporting {m : Type → Type} {σ : Type} [Monad m] (report : Event → m Unit)
    (resolver : Resolver m σ) : Resolver m σ :=
  fun atom => do
    let callback? ← resolver atom
    if callback?.isNone then
      report (.unresolved atom)
    return callback?

namespace Condition

variable {m : Type → Type} {σ : Type}

/-- The condition for an expression, with no leaf resolved. -/
def ofTree (tree : Tree Atom) : Condition σ :=
  ⟨tree.map Leaf.unresolved, false⟩

/-- The condition that a text is, with no leaf resolved. -/
def parse (text : String) : Except CompileError (Condition σ) := do
  let tokens ← tokenize text
  return ofTree (← PredicateExpr.parse tokens)

/-- A condition with its leaves put to a resolver. -/
def rebind [Monad m] (resolver : Resolver m σ) (condition : Condition σ) : m (Condition σ) := do
  return ⟨← condition.root.resolve resolver, true⟩

/-- The condition that a text is, with its leaves put to a resolver. Each token is reported as it is
read, then the expression once it is known, then each leaf left unresolved; an error ends the
report. -/
def compile [Monad m] (report : Event → m Unit) (resolver : Resolver m σ) (text : String) :
    ExceptT CompileError m (Condition σ) := do
  let scan := scan text
  scan.tokens.forM fun token => report (.lexed token)
  let tokens ← scan.result
  let tree ← PredicateExpr.parse tokens
  report (.parsed tree)
  ExceptT.lift ((ofTree tree).rebind (resolver.reporting report))

/-- The condition that a text is, with its leaves put to a resolver and nothing reported. -/
def new [Monad m] (resolver : Resolver m σ) (text : String) :
    ExceptT CompileError m (Condition σ) :=
  compile (fun _ => pure ()) resolver text

/-- The outcome of compiling a text against a resolver whose answers are known in advance, with all
that is reported on the way, in order. -/
def compileEvents (answer : Atom → Option (Callback σ)) (text : String) :
    Except CompileError (Condition σ) × List Event :=
  ((compile (m := StateM (List Event)) (fun event => modify (· ++ [event]))
    (.ofFunction answer) text).run).run []

/-- The atoms of the leaves, from left to right, and whether each is resolved. -/
def leaves (condition : Condition σ) : List (Atom × Bool) :=
  condition.root.leaves.map fun leaf => (leaf.atom, leaf.resolved)

/-- The value of a condition. -/
def evaluate (condition : Condition σ) : StateM (Run σ) Bool :=
  condition.root.evaluate Leaf.ask

/-- The value of a condition in a given state, with the calls made and the state afterwards. -/
def run (condition : Condition σ) (state : σ) : Bool × Run σ :=
  condition.evaluate ⟨state, []⟩

/-- The rendering of the expression. -/
def render (condition : Condition σ) : String :=
  condition.root.renderWith fun leaf => leaf.atom.render

end Condition

end PredicateExpr
