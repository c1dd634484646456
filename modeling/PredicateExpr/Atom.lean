/-!
# Atoms

An atom is what an expression says about one predicate: its name and the literal arguments that
follow the name. It is the whole of what a resolver is told about a leaf.
-/

namespace PredicateExpr

/-- A predicate name with its arguments. -/
structure Atom where
  /-- The name of the predicate. -/
  name : String
  /-- The texts of its literal arguments, in order. -/
  args : List String
  deriving DecidableEq, Repr

/-- An atom as it is written in renderings: `name(arg, arg)`. -/
def Atom.render (atom : Atom) : String :=
  atom.name ++ "(" ++ ", ".intercalate atom.args ++ ")"

end PredicateExpr
