import PredicateExpr.Resolution
import PredicateExpr.Text.TruthValue
import PredicateExpr.Valuation

/-!
# Assignments

A truth value is assigned to a predicate name by a text `NAME=BOOL`. The first equals sign divides
the text, blanks around either half are dropped, and the name must not be empty. Assignments amount
to a valuation, which resolves every predicate of an assigned name, whatever its arguments, and no
other.
-/

namespace PredicateExpr

/-- A truth value for the predicates of a name. -/
structure Assignment where
  /-- The name. -/
  name : String
  /-- The value. -/
  value : Bool
  deriving DecidableEq, Repr

namespace Assignment

/-- The assignment that a text is, if any. -/
def ofText? (text : String) : Option Assignment :=
  match text.toList.dropWhile (· != '=') with
  | [] => none
  | _ :: value =>
    match Text.trim (text.toList.takeWhile (· != '=')) with
    | [] => none
    | name => (Text.readBool? value).map fun value => ⟨String.ofList name, value⟩

/-- The complaint about a text that is no assignment. -/
def invalidMessage (text : String) : String :=
  s!"invalid assignment '{text}', expected NAME=BOOL"

/-- The value that assignments give to a name: that of the last assignment to it, and true if there
is none. -/
def effective (assignments : List Assignment) (name : String) : Bool :=
  ((assignments.filter (·.name = name)).getLast?.map value).getD true

/-- The valuation that assignments amount to. The last one of a name counts. -/
def valuation (assignments : List Assignment) : Valuation :=
  Valuation.ofList (assignments.map fun assignment => (assignment.name, assignment.value))

end Assignment

/-- The constant callback of an assigned name. -/
def Valuation.callback? {σ : Type} (values : Valuation) (atom : Atom) : Option (Callback σ) :=
  (values.get? atom.name).map fun value state => (value, state)

end PredicateExpr
