import PredicateExpr.Resolution

/-!
# Evaluating an expression

The left operand is evaluated before the right one. A conjunction whose left operand is false and a
disjunction whose left operand is true leave the right operand out. The empty expression and leaves
without a callback are true.

`Tree.evaluate` is generic in the monad in which a leaf answers. `Leaf.ask` answers by the callback
of the leaf and keeps account of the calls made.
-/

namespace PredicateExpr

/-- The value of two computations under a connective. The second one runs only if its value
matters, or if the connective needs both. -/
def Connective.combineM {m : Type → Type} [Monad m] (c : Connective) (left right : m Bool) :
    m Bool :=
  match c with
  | .and => do if ← left then right else return false
  | .or => do if ← left then return true else right
  | .xor => do return (← left) ^^ (← right)

/-- The value of an expression, where `ask` gives the value of a leaf. -/
def Tree.evaluate {m : Type → Type} {α : Type} [Monad m] (ask : α → m Bool) : Tree α → m Bool
  | .empty => return true
  | .leaf a => ask a
  | .not t => do return !(← t.evaluate ask)
  | .join c l r => c.combineM (l.evaluate ask) (r.evaluate ask)

/-- Where an evaluation stands. -/
structure Run (σ : Type) where
  /-- The state that the callbacks share. -/
  state : σ
  /-- The atoms whose callbacks were called, in order. -/
  calls : List Atom

/-- The value of a leaf: the answer of its callback, or true if it has none. -/
def Leaf.ask {σ : Type} (leaf : Leaf σ) : StateM (Run σ) Bool :=
  match leaf.callback? with
  | none => return true
  | some callback => fun run =>
    let (answer, state) := callback run.state
    (answer, ⟨state, run.calls ++ [leaf.atom]⟩)

end PredicateExpr
