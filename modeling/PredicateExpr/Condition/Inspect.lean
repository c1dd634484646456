import PredicateExpr.Condition.Basic
import PredicateExpr.Text.Quoted
import PredicateExpr.Text.TruthValue

/-!
# The structure of a condition in full

`Condition.inspect` spells out every part of a condition: the nodes of its tree, the name and the
arguments of each leaf as quoted texts, and which leaves are resolved.
-/

namespace PredicateExpr

/-- The parts of a leaf. -/
def Leaf.inspect {σ : Type} (leaf : Leaf σ) : String :=
  inspectRecord "Leaf" [("name", Text.quote leaf.atom.name),
    ("args", inspectList (leaf.atom.args.map Text.quote)), ("resolved", Text.ofBool leaf.resolved)]

/-- The parts of a condition. -/
def Condition.inspect {σ : Type} (condition : Condition σ) : String :=
  inspectRecord "PredicateExpression"
    [("root", condition.root.inspect Leaf.inspect), ("bound", Text.ofBool condition.bound)]

end PredicateExpr
